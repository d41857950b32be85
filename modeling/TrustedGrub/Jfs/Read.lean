import TrustedGrub.Fsys.Devread
import TrustedGrub.Lib.Loop
import TrustedGrub.Lib.Memory
import Mathlib.Data.BitVec

/-!
# Files of a JFS file system

`first_extent`, `next_extent`, `di_read` and `jfs_read` of `fsys_jfs.c`. One page of an extent
tree is in memory, and it stays there when another inode is read.
-/

namespace TrustedGrub.Jfs
open Fsys (Byte Word Long Block Partition Io devread)
open Loop (Body Flow run)
open Memory (slice)

/-- A 16-bit number. -/
def le16 (b : Block) (i : Nat) : BitVec 16 := b (i + 1) ++ b i
/-- A 32-bit number. -/
def le32 (b : Block) (i : Nat) : Word := le16 b (i + 2) ++ le16 b i
/-- A 64-bit number. -/
def le64 (b : Block) (i : Nat) : Long := le32 b (i + 4) ++ le32 b i

/-- `struct jfs_info` after `jfs_mount`. -/
structure Mount where
  l2bsize : Nat

/-- `bsize`. -/
def Mount.bsize (m : Mount) : Nat := 2 ^ m.l2bsize
/-- `bdlog`. -/
def Mount.bdlog (m : Mount) : Nat := m.l2bsize - 9

/-! ## Extents -/

/-- `offsetXAD` of the `xad_t` at a place. -/
def offsetXAD (b : Block) (i : Nat) : Long := ((b (i + 3)).setWidth 64 <<< 32) ||| (le32 b (i + 4)).setWidth 64
/-- `addressXAD`. -/
def addressXAD (b : Block) (i : Nat) : Long := ((b (i + 11)).setWidth 64 <<< 32) ||| (le32 b (i + 12)).setWidth 64
/-- `lengthXAD`. -/
def lengthXAD (b : Block) (i : Nat) : Long := (b (i + 10) ++ (b (i + 9) ++ b (i + 8))).setWidth 64
/-- `addressPXD` of the `pxd_t` at a place. -/
def addressPXD (b : Block) (i : Nat) : Long := ((b (i + 3)).setWidth 64 <<< 32) ||| (le32 b (i + 4)).setWidth 64

/-- `header.next` of an `xtpage_t`. -/
def headerNext (b : Block) : Long := le64 b 0
/-- `header.flag & BT_LEAF`. -/
def isLeaf (b : Block) : Bool := b 16 &&& 2 ≠ 0
/-- `header.nextindex`. -/
def nextindex (b : Block) : Word := (le16 b 18).signExtend 32

/-- `XTENTRYSTART`. -/
def xtentrystart : Nat := 2

/-- What `jfs.xad` points into: the tree's root, or the page. -/
inductive Place where
  | root | page
  deriving DecidableEq

/-- The globals that reading files changes: `filepos`, the page, the cursor, and what `devread`
changes. `xad` is the index of the entry that is up. -/
structure State (σ : Type) where
  filepos : Word
  xtpage : Block
  xindex : Word
  xlastindex : Word
  place : Place
  xad : Nat
  io : Io σ

variable {σ : Type}

/-- The array that `jfs.xad` points into. -/
def State.entries (s : State σ) (root : Block) : Block :=
  match s.place with
  | .root => root
  | .page => s.xtpage

/-- A page is read over the one in memory. -/
def readPage (d : Partition σ) (m : Mount) (address : Long) (s : State σ) : State σ :=
  let (_, xtpage, io) := devread d ((address <<< m.bdlog).setWidth 32) 0 4096 s.xtpage s.io
  { s with xtpage := xtpage, io := io }

/-- A pass of the loop of `first_extent`. -/
def firstPass (d : Partition σ) (m : Mount) (root : Block) : Body Unit (State σ) Unit := fun _ _ s =>
  let s := readPage d m (addressXAD (s.entries root) (16 * s.xad)) s
  let s := { s with place := .page, xad := 2 }
  if isLeaf s.xtpage then some (.done () s) else some (.next () s)

/-- `first_extent`. -/
def firstExtent (d : Partition σ) (m : Mount) (root : Block) (fuel : Nat) (s : State σ) : Option (State σ) :=
  let s := { s with xindex := 2, place := .root, xad := 2 }
  if isLeaf root then some { s with xlastindex := nextindex root }
  else do
    let (_, s) ← run (firstPass d m root) fuel () s
    some { s with xlastindex := nextindex s.xtpage }

/-- `next_extent`, which delivers the entry that is up then, if there is one. -/
def nextExtent (d : Partition σ) (m : Mount) (s : State σ) : Bool × State σ :=
  let s := { s with xindex := s.xindex + 1 }
  if s.xindex.toInt < s.xlastindex.toInt then (true, { s with xad := s.xad + 1 })
  else if headerNext s.xtpage ≠ 0 then
    let s := readPage d m (headerNext s.xtpage) s
    let s := { s with xlastindex := nextindex s.xtpage, xindex := .ofNat 32 xtentrystart, place := .page, xad := xtentrystart }
    (true, { s with xad := s.xad + 1 })
  else (false, s)

/-- `isinxt`. -/
def isinxt (key offset len : Long) : Bool := offset.sle key && key.slt (offset + len)

/-! ## `di_read` -/

/-- A pass of the loop of `di_read`. The result is what is put to where the inode goes. -/
def diReadPass (d : Partition σ) (m : Mount) (fileset : Block) (stack : Block) (key : Long) (xd ioffset : Word) :
    Body Block (State σ) Block := fun _ di s =>
  let entries := s.entries fileset
  let offset := offsetXAD entries (16 * s.xad)
  if isinxt key offset (lengthXAD entries (16 * s.xad)) then
    let (_, pxd, io) := devread d (((addressXAD entries (16 * s.xad) + key - offset) <<< m.bdlog).setWidth 32) (3072 + xd * 8) 8 stack s.io
    let (_, di, io) := devread d ((addressPXD pxd 0 <<< m.bdlog).setWidth 32) ioffset 512 di io
    some (.done di { s with io := io })
  else
    match nextExtent d m s with
    | (true, s) => some (.next di s)
    | (false, s) => some (.done di s)

/-- `di_read`. -/
def diRead (d : Partition σ) (m : Mount) (fileset : Block) (stack : Block) (fuel : Nat) (inum : Word) (di : Block) (s : State σ) :
    Option (Block × State σ) := do
  let key := ((((inum >>> 12) <<< 12) + 4096) >>> m.l2bsize).setWidth 64
  let s ← firstExtent d m fileset fuel s
  run (diReadPass d m fileset stack key ((inum &&& 4095) >>> 5) (((inum &&& 4095) &&& 31) <<< 9)) fuel di s

/-! ## `jfs_read` -/

/-- The locals of `jfs_read`, with the bytes that have been put into `buf`. -/
structure Reading where
  len : Word
  endofprev : Long
  out : List Byte

/-- What the loop of `jfs_read` does with an extent. The result says whether to go on to the
next one. -/
def readExtent (d : Partition σ) (m : Mount) (root : Block) (stack : Block) (endpos : Word) (t : Reading) (s : State σ) :
    Bool × Reading × State σ :=
  let entries := s.entries root
  let offset := offsetXAD entries (16 * s.xad)
  let xadlen := lengthXAD entries (16 * s.xad)
  if isinxt ((s.filepos.sshiftRight m.l2bsize).signExtend 64) offset xadlen then
    let endofcur := (offset + xadlen) <<< m.l2bsize
    let toread := if (endpos.signExtend 64).sle endofcur then t.len else (endofcur - s.filepos.signExtend 64).setWidth 32
    let (_, buf, io) := devread d ((addressXAD entries (16 * s.xad) <<< m.bdlog).setWidth 32)
      ((s.filepos.signExtend 64 - offset <<< m.l2bsize).setWidth 32) toread stack s.io
    (true, ⟨t.len - toread, offset + xadlen, t.out ++ slice buf 0 toread.toNat⟩, { s with filepos := s.filepos + toread, io := io })
  else if t.endofprev.slt offset then
    let toread := if (endpos.signExtend 64).sle (offset <<< m.l2bsize) then t.len else ((offset - t.endofprev) <<< m.l2bsize).setWidth 32
    (false, ⟨t.len - toread, t.endofprev, t.out ++ List.replicate toread.toNat 0⟩, { s with filepos := s.filepos + toread })
  else (true, ⟨t.len, offset + xadlen, t.out⟩, s)

/-- A pass of the loop of `jfs_read`. -/
def readPass (d : Partition σ) (m : Mount) (root : Block) (stack : Block) (endpos : Word) :
    Body Reading (State σ) (List Byte) := fun _ t s =>
  let (on, t, s) := readExtent d m root stack endpos t s
  let (xad, s) := if on then nextExtent d m s else (true, s)
  if 0 < t.len.toInt ∧ xad then some (.next t s) else some (.done t.out s)

/-- `jfs_read`: the bytes that are put into `buf`, and the return value. -/
def jfsRead (d : Partition σ) (m : Mount) (root : Block) (stack : Block) (fuel : Nat) (len : Word) (s : State σ) :
    Option ((List Byte × Word) × State σ) := do
  let startpos := s.filepos
  let endpos := s.filepos + len
  let s ← firstExtent d m root fuel s
  let (out, s) ← run (readPass d m root stack endpos) fuel ⟨len, .ofNat 64 (2 ^ 62 - 1), []⟩ s
  some ((out, s.filepos - startpos), s)

end TrustedGrub.Jfs
