import TrustedGrub.Disk.Read

/-!
# `grub_open` and `grub_close`

Opening: the passes over the alternative names, `setup_part`, block-list names, the
driver's walk, the gzip header, and with `measure_kernel` the copy of the file in
memory. Closing: the measurement is checked for completeness and extended into the
TPM.
-/

namespace TrustedGrub.Disk
open Fips180 (Byte Word Words)
open Sha1 (sha1Init sha1Finish)

variable {σ ι : Type}

/-! ## The gzip header -/

/-- `*((unsigned short *) buf)`. -/
def ushortAt (buf : Nat → Byte) (i : Nat) : Nat := (buf i).toNat + 256 * (buf (i + 1)).toNat

/-- `*((unsigned long *) (buf + i))`, assigned to an `int`. -/
def longAt (buf : Nat → Byte) (i : Nat) : Int := Int.bmod (ushortAt buf i + 65536 * ushortAt buf (i + 2)) (2 ^ 32)

/-- `bad_field (len)`: skips `len` bytes, or with a negative `len` a string. A read
that delivers moves on in the file, which bounds the passes. -/
def badField (p : Platform σ ι) : Nat → Int → Byte → State σ ι → Bool × State σ ι
  | 0, _, _, st => (true, st)
  | fuel + 1, len, ch, st =>
    if if 0 ≤ len then len = 0 else ch = 0 then (false, st)
    else
      let (notRetval, buf, st) := grubRead p st (.local fun _ => ch) 1
      if notRetval = 1 then badField p fuel (if 0 ≤ len then len - 1 else len) (buf 0) st
      else (notRetval = 0, st)

/-- The passes `bad_field` has in an open file. -/
def State.remaining (st : State σ ι) : Nat := (st.filemax - st.filepos + 2).toNat

/-- The method, the flags and the extra field: whether one of them is bad. -/
def badExtra (p : Platform σ ι) (buf : Nat → Byte) (st : State σ ι) : Bool × State σ ι :=
  if buf 2 ≠ 8 ∨ buf 3 &&& (0x02 ||| 0x20 ||| 0xC0) ≠ 0 then (true, st)
  else if buf 3 &&& 0x04 ≠ 0 then
    let (n, buf, st) := grubRead p st (.local buf) 2
    if n ≠ 2 then (true, st) else badField p (ushortAt buf 0 + 1) (ushortAt buf 0) 1 st
  else (false, st)

/-- A string that a flag announces. -/
def badString (p : Platform σ ι) (flag : Byte) (st : State σ ι) : Bool × State σ ι :=
  if flag ≠ 0 then badField p st.remaining (-1) 1 st else (false, st)

/-- The consistency checks on the header: whether one of them fails. -/
def badHeader (p : Platform σ ι) (buf : Nat → Byte) (st : State σ ι) : Bool × State σ ι :=
  let (bad, st) := badExtra p buf st
  if bad then (true, st)
  else
    let (bad, st) := badString p (buf 3 &&& 0x08) st
    if bad then (true, st) else badString p (buf 3 &&& 0x10) st

def State.badGzipHeader (st : State σ ι) : State σ ι :=
  { st with errnum := if st.errnum = .none then .badGzipHeader else st.errnum }

/-- The header ends at the data; the trailer comes next. -/
def State.atTrailer (st : State σ ι) : State σ ι :=
  { st with gzip.dataOffset := st.filepos, filepos := st.filemax - 8 }

/-- The trailer tells the size of the data, and the file is compressed. -/
def State.unpacking (p : Platform σ ι) (st : State σ ι) (size : Int) : State σ ι :=
  let st := initializeTables p { st with gzip.fsmax := size, gzip.filemax := size }
  { { st with compressedFile := true }.gunzipSwapValues with filepos := 0 }

/-- `gunzip_test_header`, from the trailer on. -/
def gunzipTrailer (p : Platform σ ι) (st : State σ ι) : Bool × State σ ι :=
  let (n, buf, st) := grubRead p st.atTrailer (.local fun _ => 0) 8
  if n ≠ 8 then (false, st.badGzipHeader) else (true, st.unpacking p (longAt buf 4))

/-- `filepos = 0`. -/
def State.atStart (st : State σ ι) : State σ ι := { st with filepos := 0 }

/-- `gunzip_test_header`. -/
def gunzipTestHeader (p : Platform σ ι) (st : State σ ι) : Bool × State σ ι :=
  if st.noDecompression then (st.errnum = .none, st.atStart)
  else
    let (n, buf, st) := grubRead p st (.local fun _ => 0) 10
    if n ≠ 10 ∨ ushortAt buf 0 ≠ 0x8B1F ∧ ushortAt buf 0 ≠ 0x9E1F then (st.errnum = .none, st.atStart)
    else
      let (bad, st) := badHeader p buf st
      if bad then (false, st.badGzipHeader) else gunzipTrailer p st

/-! ## `grub_open` -/

/-- The physical memory from `addr` on, as a destination. -/
def State.physical (st : State σ ι) (addr : Nat) : Dest where
  bytes i := st.mem ((addr + i) % 2 ^ 32)
  usable off len := memcheck st (Int.bmod (addr + off) (2 ^ 32)) len

/-- The physical memory as seen from `addr` on has become `bytes`. -/
def State.loaded (st : State σ ι) (addr : Nat) (bytes : Nat → Byte) : State σ ι :=
  { st with mem := fun x => bytes ((x + (2 ^ 32 - addr % 2 ^ 32)) % 2 ^ 32) }

/-- `grub_read ((char *) addr, len)`. -/
def grubReadTo (p : Platform σ ι) (st : State σ ι) (addr : Nat) (len : Int) : Int × State σ ι :=
  let (n, bytes, st) := grubRead p st (st.physical addr) len
  (n, st.loaded addr bytes)

/-- A driver takes up a symbolic link. -/
def State.onLink (st : State σ ι) (link : File) (driver : σ) : State σ ι :=
  { st with file := link, filemax := link.bytes.length, driver := driver, links := st.links ++ [link.bytes.length] }

/-- The driver's `dir_func` follows the path. -/
def runWalk (p : Platform σ ι) : DirWalk σ → State σ ι → Bool × State σ ι
  | .opened file fsmax driver, st =>
    (true, { st with file := file, filemax := file.bytes.length, fsmax := fsmax, filepos := 0, driver := driver })
  | .failed errnum filepos filemax driver, st =>
    (false, { st with errnum := errnum, filepos := filepos, filemax := filemax, driver := driver })
  | .readLink link linkbuf driver next, st =>
    let (len, linkbuf, st) := grubRead p (st.onLink link driver) (.local linkbuf) link.bytes.length
    runWalk p (next len linkbuf st.driver) st.atStart

/-- The copy of a kernel goes above the place it is loaded to. -/
def State.copyPrepared (st : State σ ι) : State σ ι :=
  { st with
    kernelCompressedFilesize := st.filemax
    kernelRealAddr := ((linuxBzimageAddr + 2 * st.filemax) % 2 ^ 32).toNat
    measureKernel := false
    sha1HasToMeasure := BitVec.ofInt 32 st.kernelFilesize
    filepos := 0 }

def State.copyLength (st : State σ ι) : Int :=
  if st.compressedFile then st.kernelCompressedFilesize else st.kernelFilesize

def State.copied (st : State σ ι) : State σ ι := { st with filepos := 0, measureKernel := true }

/-- The copy of a kernel in memory. -/
def copyKernel (p : Platform σ ι) (st : State σ ι) : State σ ι :=
  let st := st.copyPrepared
  (grubReadTo p st st.kernelRealAddr st.copyLength).2.copied

/-- The header is tested with measuring off, and of a kernel the plain size is kept. -/
def State.probing (st : State σ ι) : State σ ι :=
  { st with
    kernelFilesize := if st.measureKernel then st.filemax else st.kernelFilesize
    performSha1 := false
    measureKernel := false }

def State.probed (st : State σ ι) (measureKernel : Bool) : State σ ι :=
  { st with performSha1 := true, measureKernel := measureKernel }

/-- The end of `grub_open`, with a file that the driver has opened. -/
def openMeasured (p : Platform σ ι) (st : State σ ι) : Bool × State σ ι :=
  if st.performSha1 then
    let (temp, s) := gunzipTestHeader p st.probing
    let s := s.probed st.measureKernel
    (temp, if st.measureKernel then copyKernel p s else s)
  else gunzipTestHeader p st

/-- What one pass from `restart:` comes to. -/
inductive Pass (σ ι : Type) where
  | returned (result : Bool) (st : State σ ι)
  | retry (st : State σ ι)

/-- The resets at `restart:`. -/
def State.restarted (st : State σ ι) : State σ ι :=
  { st with
    errnum := .none
    mySha1 := sha1Init st.mySha1
    sha1ByteCount := 0
    sha1HasToMeasure := 0
    kernelFilesize := 0
    kernelCompressedFilesize := 0
    compressedFile := false
    filepos := 0
    links := [] }

/-- Try the name as a path of the mounted file system. -/
def openPath (p : Platform σ ι) (st : State σ ι) (filename : List Byte) : Pass σ ι :=
  if st.errnum ≠ .none then .retry st
  else if st.mounted then
    let (found, st) := runWalk p (p.dirFunc filename st.driver) st
    if found then
      let (result, st) := openMeasured p st
      .returned result st
    else .retry st
  else .retry { st with errnum := .fsysMount }

/-- `setup_part` has returned 0. -/
def State.refused (st : State σ ι) (errnum : GrubError) (driver : σ) : State σ ι :=
  { st with errnum := errnum, driver := driver }

/-- `setup_part` has chosen a partition. -/
def State.chosen (st : State σ ι) (part : Nat → Byte) (mounted : Bool) (errnum : GrubError) (driver : σ) : State σ ι :=
  { st with
    errnum := errnum
    part := part
    mounted := mounted
    driver := driver
    blockFile := false
    fsmax := maxint }

/-- The name has been parsed as a block list. -/
def State.named (st : State σ ι) (name : BlockName) : State σ ι :=
  { st with
    errnum := if name.ok then .none else .badFilename
    mounted := st.mounted && !name.overwrites
    filemax := name.filemax }

/-- The name is a block list. -/
def State.onBlocks (st : State σ ι) (list : List (Nat × Nat)) : State σ ι :=
  { st with blockFile := true, blocks := ⟨list, 0, 0, 0⟩ }

/-- One pass from `restart:`. -/
def openName (p : Platform σ ι) (st : State σ ι) (filename : List Byte) : Pass σ ι :=
  let st := st.restarted
  match p.setupPart filename st.driver with
  | .refused errnum driver =>
    if errnum = .fileNotFound then .retry (st.refused errnum driver) else .returned false (st.refused errnum driver)
  | .chosen filename part mounted errnum driver =>
    let st := st.chosen part mounted errnum driver
    if filename.chars.head? = some 0x2F then openPath p st filename.chars
    else
      let name := blockName filename.chars
      let st := st.named name
      if name.ok ∧ name.ptr.length ≠ filename.chars.length then
        let (result, st) := gunzipTestHeader p (st.onBlocks name.list)
        .returned result st
      else openPath p st filename.chars

/-- A name that the local buffer of `grub_open` takes; with a longer one it does not return. -/
structure FileName where
  chars : List Byte
  fits : chars.length ≤ 1500

theorem slash_f_fits : ([0x2F, 0x66] : List Byte).length ≤ 1500 := by decide

theorem sector_fits : ([0x30, 0x2B, 0x31] : List Byte).length ≤ 1500 := by decide

/-- `try_filenames`: "menu.lst" and "m". -/
def tryFilenames : List (List Byte) := [[0x6D, 0x65, 0x6E, 0x75, 0x2E, 0x6C, 0x73, 0x74], [0x6D]]

/-- The name in the buffer, where a NUL is stored behind it. It is copied there, but `grub_strcpy` and `grub_memmove` copy nothing
while an error is pending. -/
def FileName.held (filename : FileName) (st : State σ ι) (fn : List Byte) : List Byte :=
  if st.errnum = .none then filename.chars else fn.take filename.chars.length

/-- The name of a later pass. What is appended lies behind the NUL of a name that is shorter. -/
def FileName.alternative (filename : FileName) (held trial : List Byte) : List Byte :=
  if held.length < filename.chars.length then held
  else held ++ (if filename.chars.getLast? = some 0x2F then [] else [0x2F]) ++ trial

def openPasses (p : Platform σ ι) (filename : FileName) : List (List Byte) → List Byte → State σ ι → Bool × State σ ι
  | [], _, st => (false, st)
  | trial :: trials, held, st =>
    let held := filename.held st held
    match openName p st (filename.alternative held trial) with
    | .returned result st => (result, st)
    | .retry st => openPasses p filename trials held st

def grubOpen (p : Platform σ ι) (st : State σ ι) (filename : FileName) : Bool × State σ ι :=
  let held := filename.held st (p.fn st.driver)
  match openName p st held with
  | .returned result st => (result, st)
  | .retry st => openPasses p filename tryFilenames held st

/-! ## `grub_close` -/

/-- `grub_close`; `none` when the user stops the machine at the warning. -/
def grubClose (p : Platform σ ι) (st : State σ ι) : Option (State σ ι) :=
  let st := { st with measureKernel := false }
  if st.performSha1 then
    let (hashResult, mySha1) := sha1Finish st.mySha1
    let st := { st with mySha1 := mySha1 }
    if st.sha1ByteCount ≠ st.sha1HasToMeasure then
      let (escape, driver) := p.escape st.driver
      if escape then none
      else some { st with
        driver := driver
        events := st.events ++ [.notMeasured st.sha1HasToMeasure st.sha1ByteCount] }
    else if p.tpm then some { st with events := st.events ++ [.updatePcr pcrKernel hashResult] }
    else some st
  else some st

end TrustedGrub.Disk
