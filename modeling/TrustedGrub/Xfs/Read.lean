import TrustedGrub.Fsys.Devread
import TrustedGrub.Lib.Loop
import TrustedGrub.Lib.Memory
import Mathlib.Data.BitVec

/-!
# Files of an XFS file system

`init_extents`, `next_extent` and `xfs_read` of `fsys_xfs.c`, and `devread` below them. All
numbers of XFS are big-endian.
-/

namespace TrustedGrub.Xfs
open Disk (GrubError)
open Fsys (Byte Word Long Block Partition Io devread)
open Loop (Body Flow run)
open Memory (slice)

/-- `le16`. -/
def le16 (b : Block) (i : Nat) : BitVec 16 := b i ++ b (i + 1)
/-- `le32`. -/
def le32 (b : Block) (i : Nat) : Word := le16 b i ++ le16 b (i + 2)
/-- `le64`. -/
def le64 (b : Block) (i : Nat) : Long := le32 b i ++ le32 b (i + 4)

/-! ## The file system -/

/-- `struct xfs_info` after `xfs_mount`. -/
structure Mount where
  blklog : Nat
  agblklog : Nat
  agblocks : Word
  isize : Word

/-- `bdlog`. -/
def Mount.bdlog (m : Mount) : Nat := m.blklog - 9
/-- `bsize`. -/
def Mount.bsize (m : Mount) : Nat := 2 ^ m.blklog
/-- `btnode_ptr0_off`. -/
def Mount.btnodePtr0Off (m : Mount) : Nat := (m.bsize - 24) / 16 * 8 + 24

/-- `xfs_dinode_fmt_t`. -/
inductive Format where
  | dev | local | extents | btree | uuid
  deriving DecidableEq

/-- The inode, with the data fork from `di_u` on. -/
structure Inode where
  format : Format
  nextents : Word
  forkoff : Byte
  u : Block

/-- The globals that reading a file changes: `filepos`, `errnum`, and the extent that is up.
`xt` is a place in the inode. -/
structure State (σ : Type) where
  filepos : Word
  nextents : Word
  xt : Nat
  next : Long
  daddr : Long
  fpos : Word
  filebuf : Block
  io : Io σ

variable {σ : Type}

/-! ## Extents -/

/-- `xad_t`. -/
structure Xad where
  offset : Long
  start : Long
  len : Long

/-- `mask32lo`. -/
def mask32lo (n : Nat) : Word := (1 : Word) <<< n - 1

/-- `xt_start`. -/
def xtStart (b : Block) (i : Nat) : Long :=
  ((le32 b (i + 4) &&& mask32lo 9).setWidth 64 <<< 43) ||| ((le32 b (i + 8)).setWidth 64 <<< 11) ||| ((le32 b (i + 12)).setWidth 64 >>> 21)

/-- `xt_offset`. -/
def xtOffset (b : Block) (i : Nat) : Long := ((le32 b i &&& mask32lo 31).setWidth 64 <<< 23) ||| ((le32 b (i + 4)).setWidth 64 >>> 9)

/-- `xt_len`. -/
def xtLen (b : Block) (i : Nat) : Long := (le32 b (i + 12) &&& mask32lo 21).setWidth 64

/-- `isinxt`. -/
def isinxt (key offset len : Long) : Bool := offset ≤ key ∧ key < offset + len

/-- `agb2daddr`. -/
def agb2daddr (m : Mount) (agno agbno : Word) : Long := (agno.setWidth 64 * m.agblocks.setWidth 64 + agbno.setWidth 64) <<< m.bdlog

/-- `fsb2daddr`. -/
def fsb2daddr (m : Mount) (fsbno : Long) : Long :=
  agb2daddr m ((fsbno >>> m.agblklog).setWidth 32) ((fsbno &&& (mask32lo m.agblklog).setWidth 64).setWidth 32)

/-- `btroot_maxrecs`. -/
def btrootMaxrecs (m : Mount) (inode : Inode) : Word :=
  let tmp : Word := if inode.forkoff = 0 then m.isize else inode.forkoff.setWidth 32 <<< 3
  (tmp - 4 - 100) / 16

/-- `ptr0`, as `di_read` sets it. -/
def Inode.ptr0 (m : Mount) (inode : Inode) : Long := le64 inode.u (4 + btrootMaxrecs m inode * 8).toNat

/-- `bb_level` of a block of the tree. -/
def bbLevel (h : Block) : BitVec 16 := le16 h 4
/-- `bb_numrecs`. -/
def bbNumrecs (h : Block) : BitVec 16 := le16 h 6
/-- `bb_rightsib`. -/
def bbRightsib (h : Block) : Long := le64 h 16

/-- The number of records of a leaf and what is behind it are noted. -/
def State.leaf (s : State σ) (m : Mount) (h : Block) : State σ :=
  { s with nextents := (bbNumrecs h).setWidth 32, next := fsb2daddr m (bbRightsib h), fpos := 24 }

/-- The locals of `init_extents`: `ptr0` as bytes, and `h`. -/
structure Init where
  ptr0 : Long
  h : Block

/-- A pass of the loop of `init_extents`. -/
def initPass (d : Partition σ) (m : Mount) : Body Init (State σ) Unit := fun _ t s =>
  let s := { s with daddr := fsb2daddr m t.ptr0 }
  let (_, h, io) := devread d (s.daddr.setWidth 32) 0 24 t.h s.io
  if bbLevel h = 0 then some (.done () (State.leaf { s with io := io } m h))
  else
    let (_, ptr0, io) := devread d (s.daddr.setWidth 32) (.ofNat 32 m.btnodePtr0Off) 8 (fun i => t.ptr0.extractLsb' (8 * (7 - i)) 8) io
    some (.next ⟨le64 ptr0 0, h⟩ { s with io := io })

/-- `init_extents`. -/
def initExtents (d : Partition σ) (m : Mount) (inode : Inode) (stack : Block) (fuel : Nat) (s : State σ) : Option (State σ) :=
  match inode.format with
  | .extents => some { s with xt := 0, nextents := inode.nextents }
  | .btree => (run (initPass d m) fuel ⟨inode.ptr0 m, stack⟩ s).map Prod.snd
  | _ => some s

/-- The record is taken. -/
def State.take (s : State σ) (b : Block) (i : Nat) : Option Xad × State σ :=
  (some ⟨xtOffset b i, xtStart b i, xtLen b i⟩, { s with xt := s.xt + 16, nextents := s.nextents - 1 })

/-- The header of the next leaf is read. -/
def nextLeaf (d : Partition σ) (m : Mount) (stack : Block) (s : State σ) : State σ :=
  let (_, h, io) := devread d (s.next.setWidth 32) 0 24 stack s.io
  State.leaf { s with daddr := s.next, io := io } m h

/-- A record of a leaf is read and taken. -/
def readRecord (d : Partition σ) (s : State σ) : Option Xad × State σ :=
  let (_, filebuf, io) := devread d (s.daddr.setWidth 32) s.fpos 16 s.filebuf s.io
  State.take { s with filebuf := filebuf, fpos := s.fpos + 16, io := io } filebuf 0

/-- `next_extent`. For other formats there is nothing that `xt` points to. -/
def nextExtent (d : Partition σ) (m : Mount) (inode : Inode) (stack : Block) (s : State σ) : Option Xad × State σ :=
  match inode.format with
  | .extents => if s.nextents = 0 then (none, s) else s.take inode.u s.xt
  | .btree =>
    if s.nextents = 0 then
      if s.next = 0 then (none, s)
      else readRecord d (nextLeaf d m stack s)
    else readRecord d s
  | _ => s.take stack 0

/-! ## `xfs_read` -/

/-- The locals of `xfs_read`, with the bytes that have been put into `buf`. -/
structure Reading where
  len : Word
  endofprev : Long
  out : List Byte

/-- What the loop of `xfs_read` does with an extent. -/
def readExtent (d : Partition σ) (m : Mount) (stack : Block) (endpos : Word) (xad : Xad) (t : Reading) (s : State σ) : Reading × State σ :=
  if isinxt ((s.filepos.sshiftRight m.blklog).signExtend 64) xad.offset xad.len then
    let endofcur := (xad.offset + xad.len) <<< m.blklog
    let toread := if endpos.signExtend 64 ≤ endofcur then t.len else (endofcur - s.filepos.signExtend 64).setWidth 32
    let (_, buf, io) := devread d ((fsb2daddr m xad.start).setWidth 32)
      ((s.filepos.signExtend 64 - xad.offset <<< m.blklog).setWidth 32) toread stack s.io
    (⟨t.len - toread, xad.offset + xad.len, t.out ++ slice buf 0 toread.toNat⟩, { s with filepos := s.filepos + toread, io := io })
  else if t.endofprev < xad.offset then
    let toread := if endpos.signExtend 64 ≤ xad.offset <<< m.blklog then t.len else ((xad.offset - t.endofprev) <<< m.blklog).setWidth 32
    -- The extent behind the hole is not looked at again.
    (⟨t.len - toread, t.endofprev, t.out ++ List.replicate toread.toNat 0⟩, { s with filepos := s.filepos + toread })
  else (⟨t.len, xad.offset + xad.len, t.out⟩, s)

/-- A pass of the loop of `xfs_read`. -/
def readPass (d : Partition σ) (m : Mount) (inode : Inode) (stack : Block) (endpos : Word) :
    Body Reading (State σ) (List Byte) := fun _ t s =>
  if ¬ 0 < t.len.toInt then some (.done t.out s)
  else
    match nextExtent d m inode stack s with
    | (none, s) => some (.done t.out s)
    | (some xad, s) =>
      let (t, s) := readExtent d m stack endpos xad t s
      some (.next t s)

/-- `xfs_read`: the bytes that are put into `buf`, and the return value. -/
def xfsRead (d : Partition σ) (m : Mount) (inode : Inode) (stack : Block) (fuel : Nat) (len : Word) (s : State σ) :
    Option ((List Byte × Word) × State σ) :=
  if inode.format = .local then
    some ((slice inode.u s.filepos.toNat len.toNat, len), { s with filepos := s.filepos + len })
  else do
    let startpos := s.filepos
    let endpos := s.filepos + len
    let s ← initExtents d m inode stack fuel s
    let (out, s) ← run (readPass d m inode stack endpos) fuel ⟨len, -1, []⟩ s
    some ((out, s.filepos - startpos), s)

end TrustedGrub.Xfs
