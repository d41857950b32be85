import TrustedGrub.Fsys.Devread

/-!
# Reading a file of a VSTa file system

`vstafs_read` of `fsys_vstafs.c`, on a partition that can be read. The record of the file is read to `FILE_INFO`, in the same
memory as the caller's bytes, and looked at there again behind every extent. The bytes of a file start `VSTAFS_START_DATA`
bytes into its first extent.
-/

namespace TrustedGrub.Vstafs
open Disk (GrubError)
open Fsys (Byte Word)

/-- `VSTAFS_START_DATA` -/
def startData : Nat := 320

/-- The extents that a file record has room for. -/
def maxExtents : Nat := 32

/-- `struct alloc` -/
structure Alloc where
  start : Word
  len : Word

/-- What `vstafs_read` takes from `struct fs_file`. -/
structure FileInfo where
  len : Word
  extents : Nat
  blocks : Nat → Alloc

/-- A field of 32 bits, the low byte first. -/
def fieldAt (cells : Nat → Byte) (i : Nat) : Word := cells (i + 3) ++ cells (i + 2) ++ cells (i + 1) ++ cells i

/-- The record whose bytes are these. -/
def FileInfo.decode (cells : Nat → Byte) : FileInfo where
  len := fieldAt cells 8
  extents := (fieldAt cells 36).toNat
  blocks i := ⟨fieldAt cells (40 + 8 * i), fieldAt cells (44 + 8 * i)⟩

/-- A partition. -/
structure Volume where
  partLength : Word
  bytes : Nat → Byte

/-- The bytes of a sector. -/
def Volume.cells (v : Volume) (sector : Word) (i : Nat) : Byte := v.bytes (512 * sector.toNat + i)

/-- The record of a file, in its sector. -/
def Volume.fileInfo (v : Volume) (sector : Word) : FileInfo := .decode (v.cells sector)

/-- `FILE_INFO`: the 8192 that come to the pointer are records of 320 bytes. -/
def recordBuf : Int := 0x68000 + 8192 * 320

/-- The globals, and the memory. -/
structure State where
  errnum : GrubError
  filepos : Int
  mem : Int → Byte

/-- The record in memory. -/
def State.info (s : State) : FileInfo := .decode fun i => s.mem (recordBuf + i)

/-- `devread`, which writes nothing where it is asked for nothing, or for less. -/
def devread (v : Volume) (sector : Word) (byteOffset byteLen pos : Int) (s : State) : State :=
  if sector.toInt < 0 ∨ v.partLength ≤ sector + (BitVec.ofInt 32 (byteOffset + byteLen - 1)).sshiftRight 9 then
    { s with errnum := .outsidePart }
  else if byteLen ≤ 0 ∨ s.errnum ≠ .none then s
  else
    { s with mem := fun i => if pos ≤ i ∧ i < pos + byteLen then v.bytes (512 * sector.toInt + byteOffset + (i - pos)).toNat else s.mem i }

/-- `a[i].a_len * 512`, as an `int`. -/
def FileInfo.extSize (info : FileInfo) (i : Nat) : Int := ((info.blocks i).len * 512).toInt

/-- The loop that looks for the extent: `extent` is 1 in every pass. -/
def locateLoop (info : FileInfo) : Nat → Int → Int → Int → Option (Int × Int)
  | 0, _, _, _ => none
  | fuel + 1, offset, currLen, extSize =>
    let currLen := currLen - extSize
    let offset := offset - extSize
    let extSize := info.extSize 2
    if 1 < info.extents ∧ extSize < offset then locateLoop info fuel offset currLen extSize else some (offset, currLen)

/-- `offset`, `extent` and `curr_len` for a position. -/
def locate (fuel : Nat) (info : FileInfo) (filepos : Int) : Option (Int × Nat × Int) :=
  let room := (info.blocks 0).len * 512 - 320
  if 0 < filepos then
    if BitVec.ofInt 32 filepos < room then
      let offset := filepos + startData
      some (offset, 0, ((info.blocks 0).len * 512 - BitVec.ofInt 32 offset - BitVec.ofInt 32 filepos).toInt)
    else (locateLoop info fuel (filepos - room.toInt) 0 room.toInt).map fun (offset, currLen) => (offset, 1, currLen)
  else some (startData, 0, room.toInt)

/-- The loop over the extents: the bytes that are counted, and what is in memory. -/
def readExtents (v : Volume) : Nat → Nat → Int → Int → Int → Int → Int → State → Option (Int × State)
  | 0, _, _, _, _, _, _, _ => none
  | fuel + 1, currExt, ret, size, currLen, offset, pos, s =>
    if currExt < s.info.extents then
      let ret := ret + currLen
      let size := size - currLen
      let ret' := if size < 0 then ret + size else ret
      let currLen := if size < 0 then currLen + size else currLen
      let s := devread v (s.info.blocks currExt).start offset currLen pos s
      -- what has been read may lie over the record
      let extSize := s.info.extSize currExt
      readExtents v fuel (currExt + 1) ret' size extSize 0 (pos + extSize) s
    else some (ret, s)

/-- `get_file_info` -/
def getFileInfo (v : Volume) (sector : Word) (s : State) : State := devread v sector 0 512 recordBuf s

/-- `vstafs_read` of the file whose record is in sector `fSector`. -/
def vstafsRead (v : Volume) (fSector : Word) (fuel : Nat) (addr len : Int) (s : State) : Option (Int × State) :=
  let s := getFileInfo v fSector s
  match locate fuel s.info s.filepos with
  | none => none
  | some (offset, extent, currLen) =>
    readExtents v fuel extent 0 (s.info.len - 320).toInt (if len < currLen then len else currLen) offset addr s

/-! ## Files -/

/-- Where a byte of the extents lies in the partition. -/
def place : List Alloc → Nat → Nat
  | [], _ => 0
  | a :: as, p => if p < 512 * a.len.toNat then 512 * a.start.toNat + p else place as (p - 512 * a.len.toNat)

def FileInfo.allocs (info : FileInfo) : List Alloc := (List.range info.extents).map info.blocks

/-- The byte of a file at a position. -/
def Volume.fileByte (v : Volume) (info : FileInfo) (p : Nat) : Byte := v.bytes (place info.allocs (startData + p))

/-- The bytes of the file. -/
def FileInfo.size (info : FileInfo) : Nat := info.len.toNat - startData

/-- The bytes of the extents. -/
def FileInfo.room (info : FileInfo) : Nat := ((List.range info.extents).map fun i => 512 * (info.blocks i).len.toNat).sum

/-- A file that is stored: its record counts the extents that it has, they lie in the partition behind the first sector,
and the file ends in them. An `int` can count their bytes. -/
structure Stored (v : Volume) (info : FileInfo) : Prop where
  used : 0 < info.extents
  fits : info.extents ≤ maxExtents
  first : 0 < (info.blocks 0).len.toNat
  header : startData ≤ info.len.toNat
  room : info.len.toNat ≤ info.room
  counted : info.room < 2 ^ 31
  behind : ∀ i < info.extents, 0 < (info.blocks i).start.toNat
  inside : ∀ i < info.extents, (info.blocks i).start.toNat + (info.blocks i).len.toNat ≤ v.partLength.toNat
  partition : v.partLength.toNat < 2 ^ 31

/-- The bytes of the first extent that are the file's. -/
def FileInfo.firstRoom (info : FileInfo) : Int := 512 * (info.blocks 0).len.toNat - startData

/-- A read does what it is asked for, whatever is in memory: it ends, it counts `len` bytes, and these are the bytes of the file
in the memory from `addr` on, in which nothing else has changed but what the record is read to. -/
def Reads (v : Volume) (fSector : Word) (addr : Int) (filepos len : Nat) : Prop :=
  ∀ mem : Int → Byte, ∃ (fuel : Nat) (s' : State),
    vstafsRead v fSector fuel addr len ⟨.none, filepos, mem⟩ = some ((len : Int), s') ∧ s'.errnum = .none ∧
    ∀ x : Int, s'.mem x =
      if addr ≤ x ∧ x < addr + len then v.fileByte (v.fileInfo fSector) (filepos + (x - addr).toNat)
      else if recordBuf ≤ x ∧ x < recordBuf + 512 then v.cells fSector (x - recordBuf).toNat else mem x

/-- The reads that stay in the first extent, and leave as many bytes of it behind them as they leave out at its start. Of a
file with two extents, the whole of it if the second one has none of its bytes. -/
def Fits (info : FileInfo) (filepos len : Nat) : Prop :=
  info.extents = 1 ∧ (filepos = 0 ∨ filepos = info.firstRoom ∨ 2 * filepos + len ≤ info.firstRoom) ∨
  info.extents = 2 ∧ filepos = 0 ∧ len = info.size ∧ info.size ≤ info.firstRoom

/-- The bytes of the record that are looked at again behind an extent: their number, and with a second one the length of the first
and the start of the second. -/
def FileInfo.Again (info : FileInfo) (i : Int) : Prop := 36 ≤ i ∧ i < 40 ∨ info.extents = 2 ∧ 44 ≤ i ∧ i < 52

/-- Nothing that is looked at again is read over. -/
def Apart (info : FileInfo) (addr : Int) (len : Nat) : Prop := ∀ x, addr ≤ x → x < addr + len → ¬ info.Again (x - recordBuf)

/-- No extent can be read over the record, wherever the passes put it. -/
def Clear (info : FileInfo) (addr : Int) : Prop := recordBuf + 512 ≤ addr ∨ addr + 2 * info.room ≤ recordBuf

end TrustedGrub.Vstafs
