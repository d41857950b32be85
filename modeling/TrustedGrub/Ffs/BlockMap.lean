import TrustedGrub.Fsys.Devread

/-!
# The block maps of FFS and UFS2

`block_map` of `fsys_ffs.c` and of `fsys_ufs2.c`. They differ in the size of a block pointer,
and in nothing else: both count the bytes of the indirect block by `sizeof (int)`.
-/

namespace TrustedGrub.Ffs
open Disk (GrubError)
open Fsys (Byte Word Long Block Partition Io devread)

/-- What `block_map` takes from the superblock. -/
structure Superblock where
  bsize : Word
  fsbtodb : Word
  nindir : Word

/-- The block pointers of an inode, of `k` bytes each: `i_db`, and `i_ib[0]`. -/
structure Inode (k : Nat) where
  db : Nat → BitVec (8 * k)
  ib0 : BitVec (8 * k)

/-- `mapblock`, `mapblock_offset` and `mapblock_bsize`. -/
structure Window where
  mapblock : Word
  mapblockOffset : Word
  mapblockBsize : Word
  deriving DecidableEq

/-- The globals. `mapbuf` is the memory, from `MAPBUF` on and before it. -/
structure State (σ : Type) where
  window : Window
  mapbuf : Int → Byte
  io : Io σ

variable {σ : Type}

/-- `NDADDR`. -/
def ndaddr : Word := 12

/-- `MAPBUF_LEN`. -/
def mapbufLen : Word := 8192

/-- A number of `k` bytes in memory, little-endian. -/
def numberAt (mem : Int → Byte) (i : Int) : (k : Nat) → BitVec (8 * k)
  | 0 => 0#0
  | k + 1 => numberAt mem (i + 1) k ++ mem i

/-- What mounting does to the map. -/
def State.mounted (s : State σ) : State σ := { s with window := { s.window with mapblock := -1, mapblockOffset := -1 } }

/-- `fsbtodb` of `i_ib[0]`, as an `int`. -/
def Inode.bnum {k : Nat} (inode : Inode k) (sb : Superblock) : Word := (inode.ib0 <<< sb.fsbtodb.toNat).setWidth 32

/-- `(file_block - NDADDR) % NINDIR (SUPERBLOCK)`. -/
def entryOf (sb : Superblock) (fileBlock : Word) : Word := (fileBlock - ndaddr).srem sb.nindir

/-- The map is loaded for block `bnum`, before anything is taken from it. -/
def Window.Reloads (w : Window) (bnum : Word) : Prop :=
  bnum ≠ w.mapblock ∨ w.mapblockOffset.sle bnum ∧ bnum.sle (w.mapblockOffset + w.mapblockBsize)

instance (w : Window) (bnum : Word) : Decidable (w.Reloads bnum) := inferInstanceAs (Decidable (_ ∨ _))

/-- `offset` and `bsize`. -/
def part (sb : Superblock) (fileBlock : Word) : Word × Word :=
  if mapbufLen.slt sb.bsize then
    (if sb.bsize.slt (entryOf sb fileBlock + mapbufLen) then (sb.bsize - mapbufLen) / 4 else entryOf sb fileBlock, mapbufLen)
  else (0, sb.bsize)

/-- The map is loaded. -/
def load (d : Partition σ) (sb : Superblock) (bnum fileBlock : Word) (s : State σ) : Bool × State σ :=
  let (offset, bsize) := part sb fileBlock
  let (ok, buf, io) := devread d bnum (offset * 4) bsize (fun i => s.mapbuf i) s.io
  let mapbuf := fun i : Int => if i < 0 then s.mapbuf i else buf i.toNat
  if ok then (true, ⟨⟨bnum, offset, bsize⟩, mapbuf, io⟩)
  else (false, ⟨⟨-1, -1, -1⟩, mapbuf, { io with errnum := .fsysCorrupt }⟩)

/-- The entry of the map. -/
def State.entry {k : Nat} (s : State σ) (sb : Superblock) (fileBlock : Word) : BitVec (8 * k) :=
  numberAt s.mapbuf (k * (entryOf sb fileBlock - s.window.mapblockOffset).toInt) k

/-- `block_map`, for block pointers of `k` bytes. -/
def mapBlock {k : Nat} (d : Partition σ) (sb : Superblock) (inode : Inode k) (fileBlock : Word) (s : State σ) : BitVec (8 * k) × State σ :=
  if fileBlock.slt ndaddr then (inode.db fileBlock.toNat, s)
  else if s.window.Reloads (inode.bnum sb) then
    match load d sb (inode.bnum sb) fileBlock s with
    | (false, s) => (-1, s)
    | (true, s) => (s.entry sb fileBlock, s)
  else (s.entry sb fileBlock, s)

/-- `block_map` of `fsys_ffs.c`. -/
def blockMap (d : Partition σ) (sb : Superblock) (inode : Inode 4) (fileBlock : Word) (s : State σ) : Word × State σ :=
  mapBlock d sb inode fileBlock s

end TrustedGrub.Ffs

namespace TrustedGrub.Ufs2
open Fsys (Word Long Partition)
open Ffs (Superblock Inode State)

/-- `block_map` of `fsys_ufs2.c`. -/
def blockMap {σ : Type} (d : Partition σ) (sb : Superblock) (inode : Inode 8) (fileBlock : Word) (s : State σ) : Long × State σ :=
  Ffs.mapBlock d sb inode fileBlock s

end TrustedGrub.Ufs2
