import TrustedGrub.Disk.State

/-!
# `grub_read`

`grub_read` of `disk_io.c` with the two readers it leaves to: `gunzip_read` of
`gunzip.c` and the block-list loop. `grub_read` calls itself, for the skipped part of
a file it measures and from `get_byte`, and never more than twice over: the nested
call is a parameter of `grubReadWith`, and `grubRead` ties three levels together.
-/

namespace TrustedGrub.Disk
open Fips180 (Byte Word Words)
open Sha1 (sha1Update)

variable {σ ι : Type}

/-- A `grub_read`: the count returned, the bytes at the destination, and the globals. -/
abbrev Reader (σ ι : Type) := State σ ι → Dest → Int → Int × (Nat → Byte) × State σ ι

/-- `memcheck (addr, len)`. The last two comparisons are unsigned. -/
def memcheck (st : State σ ι) (addr len : Int) : Bool :=
  !(addr < 0x1000 ||
    (addr < 0x100000 && ((st.memLower * 1024 % 2 ^ 32 : Nat) : Int) < (addr + len) % 2 ^ 32) ||
    (0x100000 ≤ addr && ((st.memUpper * 1024 % 2 ^ 32 : Nat) : Int) < (addr - 0x100000 + len) % 2 ^ 32))

/-- `sha1_update (&my_sha1, bytes)` and the count. -/
def State.hashed (st : State σ ι) (bytes : List Byte) (count : Int) : State σ ι :=
  { st with
    mySha1 := (sha1Update st.mySha1 bytes).2
    sha1ByteCount := st.sha1ByteCount + BitVec.ofInt 32 count }

/-! ## The decompressor -/

def wsize : Nat := 0x8000
def inbufsiz : Nat := 0x2000

/-- `gunzip_swap_values`. -/
def State.gunzipSwapValues (st : State σ ι) : State σ ι :=
  { st with
    filepos := st.gzip.filepos
    filemax := st.gzip.filemax
    fsmax := st.gzip.fsmax
    gzip := { st.gzip with filepos := st.filepos, filemax := st.filemax, fsmax := st.fsmax } }

/-- `initialize_tables`. -/
def initializeTables (p : Platform σ ι) (st : State σ ι) : State σ ι :=
  { st with
    filepos := st.gzip.dataOffset
    gzip := { st.gzip with savedFilepos := 0, inflate := p.resetInflate st.gzip.inflate } }

/-- `bufloc = 0`. -/
def State.bufferUsed (st : State σ ι) : State σ ι := { st with gzip.bufloc := 0 }

def State.bufferFilled (st : State σ ι) (inbuf : Nat → Byte) : State σ ι := { st with gzip.inbuf := inbuf }

/-- `bufloc++`. -/
def State.byteTaken (st : State σ ι) : State σ ι := { st with gzip.bufloc := st.gzip.bufloc + 1 }

/-- The part of `get_byte` that reads the next buffer. -/
def fillBuffer (read : Reader σ ι) (st : State σ ι) : State σ ι :=
  let (_, inbuf, st) := read st.bufferUsed (.local st.gzip.inbuf) inbufsiz
  st.bufferFilled inbuf

/-- `get_byte`. -/
def getByte (read : Reader σ ι) (st : State σ ι) : Byte × State σ ι :=
  let st := if st.filepos = st.gzip.dataOffset ∨ st.gzip.bufloc = inbufsiz then fillBuffer read st else st
  (st.gzip.inbuf st.gzip.bufloc, st.byteTaken)

/-- The window is full, or the stream has ended; or `bad` data have been found. -/
def State.windowDone (st : State σ ι) (inflate : ι) (bad : Bool) : State σ ι :=
  { st with
    errnum := if bad then .badGzipData else st.errnum
    gzip.inflate := inflate
    gzip.savedFilepos := st.gzip.savedFilepos + wsize }

/-- `inflate_window` returns early. -/
def State.windowLost (st : State σ ι) (inflate : ι) : State σ ι :=
  { st with
    errnum := if st.errnum = .none then .badGzipData else st.errnum
    gzip.inflate := inflate }

/-- `inflate_window` does nothing, with `errnum` set. -/
def State.windowPassed (st : State σ ι) : State σ ι := { st with gzip.savedFilepos := st.gzip.savedFilepos + wsize }

/-- The main loop of `inflate_window`, once it has begun. -/
def runInflate (read : Reader σ ι) : Inflating ι → State σ ι → State σ ι
  | .getByte next, st =>
    let (b, st) := getByte read st
    runInflate read (next b st.errnum) st
  | .window inflate bad, st => st.windowDone inflate bad
  | .abandoned inflate, st => st.windowLost inflate

/-- `inflate_window`. Its loop is not entered with `errnum` set. -/
def inflateWindow (p : Platform σ ι) (read : Reader σ ι) (st : State σ ι) : State σ ι :=
  if st.errnum = .none then runInflate read (p.inflateWindow st.gzip.inflate) st
  else st.windowPassed

/-- `while (gzip_filepos >= saved_filepos) inflate_window ();`. A window that is
abandoned leaves `errnum` set, after which every pass moves `saved_filepos` on. -/
def inflateTo (p : Platform σ ι) (read : Reader σ ι) : Nat → State σ ι → State σ ι
  | 0, st => st
  | fuel + 1, st =>
    if st.gzip.savedFilepos ≤ st.gzip.filepos then inflateTo p read fuel (inflateWindow p read st) else st

/-- The passes `inflateTo` needs. -/
def State.windowsAhead (st : State σ ι) : Nat := ((st.gzip.filepos - st.gzip.savedFilepos) / wsize + 2).toNat

/-- `size` bytes have been copied out of the window. -/
def State.copiedOut (st : State σ ι) (size : Nat) (usable : Bool) : State σ ι :=
  { st with
    errnum := if usable then st.errnum else .wontFit
    gzip.filepos := st.gzip.filepos + size }

/-- The loop of `gunzip_read`: the bytes stored from offset `off` on. Each pass takes
at least one byte off `len`. -/
def gunzipLoop (p : Platform σ ι) (read : Reader σ ι) (buf : Dest) : Nat → Nat → Nat → (Nat → Byte) × State σ ι → (Nat → Byte) × State σ ι
  | 0, _, _, r => r
  | fuel + 1, off, len, (bytes, st) =>
    if 0 < len ∧ st.errnum = .none then
      let st := inflateTo p read st.windowsAhead st
      let srcaddr := (st.gzip.filepos % wsize).toNat
      let size := min (st.gzip.savedFilepos - st.gzip.filepos).toNat len
      -- `memmove` does nothing with `errnum` set, or outside usable memory
      let usable := buf.usable off size
      let bytes := if st.errnum = .none ∧ usable then
          Memory.store bytes off (Memory.slice (p.slide st.gzip.inflate) srcaddr size)
        else bytes
      gunzipLoop p read buf fuel (off + size) (len - size) (bytes, st.copiedOut size usable)
    else (bytes, st)

/-- Inside `gunzip_read`: `gzip_*` refer to the uncompressed data. -/
def State.inside (st : State σ ι) : State σ ι := { st with compressedFile := false }.gunzipSwapValues

/-- The beginning of `gunzip_read`: decompression starts afresh if the window is past
the position. -/
def State.gunzipEntered (p : Platform σ ι) (st : State σ ι) : State σ ι :=
  if st.inside.gzip.filepos + wsize < st.inside.gzip.savedFilepos then initializeTables p st.inside else st.inside

/-- The end of `gunzip_read`. -/
def State.gunzipLeft (st : State σ ι) : State σ ι := { st with compressedFile := true }.gunzipSwapValues

/-- `gunzip_read`. -/
def gunzipRead (p : Platform σ ι) (read : Reader σ ι) : Reader σ ι := fun st buf len =>
  let (bytes, st) := gunzipLoop p read buf len.toNat 0 len.toNat (buf.bytes, st.gunzipEntered p)
  (if st.errnum = .none then max len 0 else 0, bytes, st.gunzipLeft)

/-! ## Block lists -/

/-- `BLK_BLKSTART` and `BLK_BLKLENGTH` of a list entry. -/
def Blocks.entry (b : Blocks) (l : Nat) : Nat × Nat := b.list.getD l (0, 0)

/-- The cursor passes a sector. -/
def Blocks.nextSector (b : Blocks) : Blocks :=
  let b := { b with curFilepos := b.curFilepos + sectorSize, curBlknum := b.curBlknum + 1 }
  if (b.entry b.curBlklist).2 ≤ b.curBlknum then { b with curBlklist := b.curBlklist + 1, curBlknum := 0 } else b

/-- `while (filepos > BLK_CUR_FILEPOS)`. Each pass but the last passes a sector. -/
def Blocks.runUp (filepos : Nat) : Nat → Blocks → Blocks
  | 0, b => b
  | fuel + 1, b =>
    if b.curFilepos < filepos then
      if sectorSize ≤ filepos - b.curFilepos / sectorSize * sectorSize then runUp filepos fuel b.nextSector
      else runUp filepos fuel { b with curFilepos := filepos }
    else b

/-- Look for the right block in the list. -/
def Blocks.find (filepos : Nat) (b : Blocks) : Blocks :=
  let b := if filepos < b.curFilepos then { b with curFilepos := 0, curBlklist := 0, curBlknum := 0 } else b
  b.runUp filepos (filepos / sectorSize + 2)

/-- A device access: the bytes at the destination, from offset `off` on. -/
def access (source : List Byte) (fault : Option Fault) (bytes : Nat → Byte) (off len : Nat) : Nat → Byte :=
  match fault with
  | none => Memory.store bytes off source
  | some fault => Memory.store bytes off (fault.stored.take len)

/-- The block in which the position lies, and what `devread` is asked for: the rest of
its list entry, or of the request. -/
def State.blockRequest (st : State σ ι) (buf : Dest) (off len : Nat) : Blocks × Request :=
  let blocks := st.blocks.find st.filepos.toNat
  let (start, length) := blocks.entry blocks.curBlklist
  let within := st.filepos.toNat % sectorSize
  let size := min ((length - blocks.curBlknum) * sectorSize - within) len
  (blocks, ⟨((start + blocks.curBlknum) * sectorSize + within : Nat), size, buf.usable off size, st.errnum⟩)

/-- The state after `devread` has answered. -/
def State.blockAnswered (st : State σ ι) (blocks : Blocks) (size : Nat) : Option Fault × σ → State σ ι
  | (none, driver) => { st with blocks := blocks, driver := driver, filepos := st.filepos + size }
  | (some fault, driver) =>
    { st with
      blocks := blocks
      driver := driver
      filepos := st.filepos + size
      errnum := fault.errnum
      faulted := true }

/-- `while (len && !errnum)` of the block-list branch. -/
def blockLoop (p : Platform σ ι) (buf : Dest) : Nat → Nat → Nat → (Nat → Byte) × State σ ι → (Nat → Byte) × State σ ι
  | 0, _, _, r => r
  | fuel + 1, off, len, (bytes, st) =>
    if 0 < len ∧ st.errnum = .none then
      let (blocks, rq) := st.blockRequest buf off len
      let answer := p.devread st.driver rq
      let bytes := access (Memory.slice st.part rq.pos.toNat rq.len) answer.1 bytes off rq.len
      blockLoop p buf fuel (off + rq.len) (len - rq.len) (bytes, st.blockAnswered blocks rq.len answer)
    else (bytes, st)

def blockRead (p : Platform σ ι) : Reader σ ι := fun st buf len =>
  let (bytes, st) := blockLoop p buf len.toNat 0 len.toNat (buf.bytes, st)
  (if st.errnum = .none then len else 0, bytes, st)

/-! ## `grub_read` -/

/-- What `read_func` returns, with the state after. -/
def State.driverAnswered (st : State σ ι) (len : Int) : Option Fault × σ → Int × State σ ι
  | (none, driver) => (len, { st with driver := driver, filepos := st.filepos + len })
  | (some fault, driver) =>
    (fault.result, { st with driver := driver, filepos := fault.filepos, errnum := fault.errnum, faulted := true })

/-- `(*(fsys_table[fsys_type].read_func)) (buf, len)`. -/
def driverRead (p : Platform σ ι) : Reader σ ι := fun st buf len =>
  let answer := p.readFunc st.driver ⟨st.filepos, len.toNat, buf.usable 0 len.toNat, st.errnum⟩
  let bytes := access (Memory.segment st.file.bytes st.filepos.toNat len.toNat) answer.1 buf.bytes 0 len.toNat
  ((st.driverAnswered len answer).1, bytes, (st.driverAnswered len answer).2)

/-- The copy of a kernel in memory. -/
def State.copyBytes (st : State σ ι) (i : Nat) : Byte := st.mem ((st.kernelRealAddr + i) % 2 ^ 32)

/-- `memcpy (buf, RAW_ADDR (kernel_real_addr + filepos), len)`: the count is unsigned. It does nothing outside of usable memory, or with
an error pending. -/
def copyRead : Reader σ ι := fun st buf len =>
  let size := (len % 2 ^ 32).toNat
  let errnum := if buf.usable 0 size then st.errnum else .wontFit
  (len, if errnum = .none then Memory.store buf.bytes 0 (Memory.slice st.copyBytes st.filepos.toNat size) else buf.bytes,
    { st with errnum := errnum, filepos := st.filepos + len })

/-- A sane value of `filepos`. -/
def saneFilepos (filepos filemax : Int) : Int := if filepos < 0 ∨ filemax < filepos then filemax else filepos

/-- `sha1_has_to_measure`, once a read has published the size. -/
def publish (hasToMeasure : Word) (filemax : Int) : Word :=
  if hasToMeasure = 0 then BitVec.ofInt 32 filemax else hasToMeasure

/-- The beginning of `grub_read`. -/
def State.aimed (st : State σ ι) : State σ ι :=
  { st with
    filepos := saneFilepos st.filepos st.filemax
    sha1HasToMeasure := publish st.sha1HasToMeasure st.filemax }

/-- To the beginning of the file, with measuring off. -/
def State.rewound (st : State σ ι) : State σ ι := { st with filepos := 0, performSha1 := false }

def State.resumed (st : State σ ι) : State σ ι := { st with performSha1 := true }

/-- A file that is measured from the middle on is measured from its beginning. -/
def measureSkipped (read : Reader σ ι) (st : State σ ι) : State σ ι :=
  if st.performSha1 ∧ st.sha1ByteCount = 0 ∧ 0 < st.filepos then
    let bufLen := st.filepos
    let (_, zeroBuffer, st) := read st.rewound (.local fun _ => 0) bufLen
    st.resumed.hashed (Memory.slice zeroBuffer 0 bufLen.toNat) st.filepos
  else st

/-- A sane value of `len`. -/
def State.saneLen (st : State σ ι) (len : Int) : Int :=
  if len < 0 ∨ st.filemax - st.filepos < len then st.filemax - st.filepos else len

/-- The end of `grub_read`: the file is read, and hashed when the driver reads it. -/
def fileRead (p : Platform σ ι) (read : Reader σ ι) : Reader σ ι := fun st buf len =>
  if st.compressedFile then gunzipRead p read st buf len
  else if st.blockFile then blockRead p st buf len
  else if st.mounted then
    let (result, bytes, st) := driverRead p st buf len
    (result, bytes, if st.performSha1 then st.hashed (Memory.slice bytes 0 len.toNat) len else st)
  else (0, buf.bytes, { st with errnum := .fsysMount })

/-- The read goes beyond what the driver can reach. -/
def State.overlong (st : State σ ι) : State σ ι := { st with errnum := .filelength, faulted := true }

/-- `grub_read`, with its calls of itself passed in. -/
def grubReadWith (p : Platform σ ι) (read : Reader σ ι) : Reader σ ι := fun st buf len =>
  let st := st.aimed
  -- if we are loading a kernel, then the data is already in memory
  if st.measureKernel then copyRead st buf len
  else if st.fsmax < st.filepos + st.saneLen len then (0, buf.bytes, st.overlong)
  else fileRead p read (measureSkipped read st) buf (st.saneLen len)

/-- The level below the last: no read gets there. -/
def noRead : Reader σ ι := fun st buf _ => (0, buf.bytes, st)

def grubRead (p : Platform σ ι) : Reader σ ι :=
  grubReadWith p (grubReadWith p (grubReadWith p noRead))

/-- `grub_seek`. -/
def grubSeek (st : State σ ι) (offset : Int) : Int × State σ ι :=
  if st.filemax < offset ∨ offset < 0 then (-1, st) else (offset, { st with filepos := offset })

end TrustedGrub.Disk
