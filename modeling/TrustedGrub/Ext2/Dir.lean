import TrustedGrub.Ext2.Extents
import TrustedGrub.Lib.Loop
import TrustedGrub.Lib.Memory

/-!
# Path names on an ext2 file system

`ext2fs_dir` of `fsys_ext2fs.c`, with the part of `grub_read` and of `ext2fs_read` that it
needs to follow a symbolic link. The loops are bodies in the sense of `Loop`: the way down
the path, the entries of a directory, the blocks of a link, the index blocks of a file with
extents.
-/

namespace TrustedGrub.Ext2
open Fips180 (Byte Word)
open Disk (GrubError isspace)
open Loop (Body Flow run)
open Memory (slice store)

variable {σ : Type}

/-! ## Tables of words as bytes -/

/-- Byte `i` of a table. -/
def byteAt (table : Nat → Word) (i : Nat) : Byte := (table (i / 4) >>> (8 * (i % 4))).setWidth 8

/-- The half word that begins with byte `i`. -/
def halfAt (table : Nat → Word) (i : Nat) : BitVec 16 := byteAt table (i + 1) ++ byteAt table i

/-- The word that begins with byte `i`. -/
def wordAt (table : Nat → Word) (i : Nat) : Word := halfAt table (i + 2) ++ halfAt table i

/-! ## The superblock -/

/-- `log2`, which counts the zeros below the lowest one. -/
def log2 (n : Nat) : Nat := ((List.range 32).find? n.testBit).getD 32

/-- The fields of the superblock that the code reads. -/
structure Superblock where
  sFirstDataBlock : Word
  sLogBlockSize : Word
  sInodesPerGroup : Word
  sRevLevel : Word
  sInodeSize : BitVec 16
  sFeatureIncompat : Word
  sDescSize : BitVec 16
  deriving DecidableEq

/-- `EXT4_FEATURE_INCOMPAT_EXTENTS`. -/
def incompatExtents : Word := 0x0040
/-- `EXT4_FEATURE_INCOMPAT_64BIT`. -/
def incompat64bit : Word := 0x0080
/-- `EXT4_EXTENTS_FL`. -/
def extentsFl : Word := 0x00080000
/-- `EXT4_HUGE_FILE_FL`. -/
def hugeFileFl : Word := 0x00040000

namespace Superblock

/-- `EXT2_BLOCK_SIZE_BITS`, of which a shift sees five bits. -/
def blockSizeBits (sb : Superblock) : Nat := (sb.sLogBlockSize.toNat + 10) % 32

/-- `EXT2_BLOCK_SIZE`. -/
def blockSize (sb : Superblock) : Nat := 2 ^ sb.blockSizeBits

/-- `EXT4_HAS_INCOMPAT_FEATURE`. -/
def hasIncompatFeature (sb : Superblock) (mask : Word) : Bool := sb.sFeatureIncompat &&& mask ≠ 0

/-- `EXT2_DESC_SIZE`. -/
def descSize (sb : Superblock) : Nat := if sb.hasIncompatFeature incompat64bit then sb.sDescSize.toNat else 32

/-- `EXT2_DESC_PER_BLOCK`. -/
def descPerBlock (sb : Superblock) : Nat := sb.blockSize / sb.descSize

/-- `EXT2_INODE_SIZE`. -/
def inodeSize (sb : Superblock) : Nat := if sb.sRevLevel = 0 then 128 else sb.sInodeSize.toNat

/-- `EXT2_INODES_PER_BLOCK`. -/
def inodesPerBlock (sb : Superblock) : Nat := sb.blockSize / sb.inodeSize

/-- The buffers for a superblock, three blocks and an inode fit into `FSYS_BUF`, nothing is
divided by zero, and no `log2` is taken of zero. The mount does not refuse another
superblock. -/
structure Usable (sb : Superblock) : Prop where
  addrs : 2 ≤ sb.blockSizeBits
  buffers : 1024 + 3 * sb.blockSize + 156 ≤ 0x8000
  groups : sb.sInodesPerGroup ≠ 0
  descs : 0 < sb.descSize ∧ sb.descSize ≤ sb.blockSize
  inodes : 0 < sb.inodeSize ∧ sb.inodeSize ≤ sb.blockSize

instance (sb : Superblock) : Decidable sb.Usable :=
  decidable_of_iff (2 ≤ sb.blockSizeBits ∧ 1024 + 3 * sb.blockSize + 156 ≤ 0x8000 ∧ sb.sInodesPerGroup ≠ 0 ∧
      (0 < sb.descSize ∧ sb.descSize ≤ sb.blockSize) ∧ 0 < sb.inodeSize ∧ sb.inodeSize ≤ sb.blockSize)
    ⟨fun ⟨h₁, h₂, h₃, h₄, h₅⟩ => ⟨h₁, h₂, h₃, h₄, h₅⟩, fun ⟨h₁, h₂, h₃, h₄, h₅⟩ => ⟨h₁, h₂, h₃, h₄, h₅⟩⟩

end Superblock

/-! ## The disk and the buffers -/

/-- What `ext2fs_dir` works on besides its locals. A file is opened with `compressed_file`,
`block_file` and `errnum` zero and with the largest `fsmax`. -/
structure DirState (σ : Type) extends State σ where
  /-- `GROUP_DESC`. -/
  groupDesc : Nat → Word
  /-- `INODE`, the first `0x9C` bytes of it. -/
  inode : Nat → Word
  filemax : Int
  filepos : Int
  measureKernel : Bool
  printPossibilities : Int
  /-- What `print_a_completion` has been called with. -/
  completions : List (List Byte)

/-- A disk with the superblock that `ext2fs_mount` has read. -/
structure Image (σ : Type) where
  super : Superblock
  /-- The blocks as tables, each with what lies behind it in a buffer. -/
  image : Word → Nat → Word
  /-- `devread` of a block: `none` delivers it, `some` is what a failure leaves in the buffer. -/
  devread : σ → Word → (Nat → Word) → Option (Nat → Word) × σ
  /-- `devread` of so many bytes of a block, from an offset on: whether it delivers them. -/
  devreadPart : σ → Word → Nat → Nat → Bool × σ
  /-- The error that a failure sets. -/
  fault : σ → { errnum : GrubError // errnum ≠ .none }
  /-- What stands before `i_block`, where a negative block number points. -/
  below : DirState σ → Int → Word
  /-- What stands at `kernel_real_addr`. -/
  kernel : Nat → Byte

/-- A disk whose superblock the code is made for. Of another one nothing is said. -/
structure Volume (σ : Type) extends Image σ where
  usable : super.Usable

namespace DirState

def iMode (g : DirState σ) : BitVec 16 := (g.inode 0).setWidth 16
def iSize (g : DirState σ) : Word := g.inode 1
def iBlocks (g : DirState σ) : Word := g.inode 7
def iFlags (g : DirState σ) : Word := g.inode 8
/-- Behind the inode comes `DATABLOCK1`. -/
def iBlock (g : DirState σ) (i : Nat) : Word := if i < 29 then g.inode (10 + i) else g.data .datablock1 (i - 29)
def iFileAcl (g : DirState σ) : Word := g.inode 26
def iSizeHigh (g : DirState σ) : Word := g.inode 27

/-- `S_ISLNK`. -/
def sIslnk (g : DirState σ) : Bool := g.iMode &&& 0xF000 = 0xA000
/-- `S_ISREG`. -/
def sIsreg (g : DirState σ) : Bool := g.iMode &&& 0xF000 = 0x8000
/-- `S_ISDIR`. -/
def sIsdir (g : DirState σ) : Bool := g.iMode &&& 0xF000 = 0x4000

/-- `errnum = e; return 0;` -/
def fail {τ ρ : Type} (g : DirState σ) (e : GrubError) (result : ρ) : Flow τ (DirState σ) ρ := .done result { g with errnum := e }

/-- The device has failed. -/
def faulted (v : Volume σ) (g : DirState σ) (dev : σ) : DirState σ :=
  { g with dev := dev, errnum := v.fault dev, failures := g.failures + 1 }

/-- `ext2_rdfsb` into `GROUP_DESC`. -/
def rdGroupDesc (v : Volume σ) (g : DirState σ) (fsblock : Word) : Bool × DirState σ :=
  match v.devread g.dev fsblock g.groupDesc with
  | (none, dev) => (true, { g with groupDesc := v.image fsblock, dev := dev })
  | (some left, dev) => (false, { g.faulted v dev with groupDesc := left })

/-- A block in the buffer of the inode, which reaches over `DATABLOCK1`. -/
def putInode (v : Volume σ) (g : DirState σ) (table : Nat → Word) : DirState σ :=
  { g with
    inode := table
    data := Function.update g.data .datablock1 fun i =>
      if 4 * (i + 39) < v.super.blockSize then table (i + 39) else g.data .datablock1 i }

/-- `ext2_rdfsb` into `INODE`. -/
def rdInode (v : Volume σ) (g : DirState σ) (fsblock : Word) : Bool × DirState σ :=
  match v.devread g.dev fsblock g.inode with
  | (none, dev) => (true, putInode v { g with dev := dev } (v.image fsblock))
  | (some left, dev) => (false, putInode v (g.faulted v dev) left)

end DirState

/-! ## Inodes and blocks -/

/-- The look-up of an inode: what is returned where it fails. -/
def lookupInode (v : Volume σ) (g : DirState σ) (currentIno : Word) : Option Int × DirState σ :=
  let groupId := (currentIno - 1) / v.super.sInodesPerGroup
  let groupDesc := groupId.sshiftRight (log2 v.super.descPerBlock)
  let desc := groupId &&& BitVec.ofNat 32 (v.super.descPerBlock - 1)
  let (ok, g) := g.rdGroupDesc v (1 + groupDesc + v.super.sFirstDataBlock)
  if !ok then (some 0, g)
  else
    let gdp := desc.toNat * v.super.descSize
    if v.super.hasIncompatFeature incompat64bit ∧ wordAt g.groupDesc (gdp + 40) = 0 then
      (some (-1), { g with errnum := .filelength })
    else
      let inoBlk := wordAt g.groupDesc (gdp + 8) + ((currentIno - 1) % v.super.sInodesPerGroup) >>> log2 v.super.inodesPerBlock
      let (ok, g) := g.rdInode v inoBlk
      if !ok then (some 0, g)
      else
        let rawInode := ((currentIno - 1) &&& BitVec.ofNat 32 (v.super.inodesPerBlock - 1)).toNat * v.super.inodeSize
        (none, { g with mapblock1 := -1, mapblock2 := -1, inode := fun i => wordAt g.inode (rawInode + 4 * i) })

theorem Superblock.Usable.blockSizeBits_le {sb : Superblock} (h : sb.Usable) : sb.blockSizeBits ≤ 13 := by
  by_contra hlt
  have hbuffers := h.buffers
  have hpow : 2 ^ 14 ≤ 2 ^ sb.blockSizeBits := Nat.pow_le_pow_right (by decide) (by omega)
  unfold Superblock.blockSize at hbuffers
  omega

theorem Volume.addrBits_le (v : Volume σ) : v.super.blockSizeBits - 2 ≤ 11 := by
  have h := v.usable.blockSizeBits_le
  omega

/-- What the block maps see of the volume and of the inode. -/
def Volume.fs (v : Volume σ) (g : DirState σ) : Fs σ where
  addrBits := v.super.blockSizeBits - 2
  addrBits_le := v.addrBits_le
  iBlock := g.iBlock
  image := v.image
  devread := v.devread

/-- The test for `EXT4_EXTENTS_FL`. -/
def usesExtents (v : Volume σ) (g : DirState σ) : Bool :=
  v.super.hasIncompatFeature incompatExtents && g.iFlags &&& extentsFl ≠ 0

/-- `ext4fs_block_map` or `ext2fs_block_map`. -/
def mapBlock (v : Volume σ) (fuel : Nat) (g : DirState σ) (logicalBlock : Word) : Option (Word × DirState σ) :=
  if usesExtents v g then do
    let (map, s) ← ext4fsBlockMap (v.fs g) fuel g.toState logicalBlock
    some (map, { g with toState := s })
  else if logicalBlock.toInt < 0 then some (v.below g logicalBlock.toInt, g)
  else
    let (map, s) := blockMap (v.fs g) g.toState logicalBlock.toNat
    some (map, { g with toState := s })

/-! ## Symbolic links -/

/-- What is left to read, what has been read, and the buffer. -/
structure Piece where
  len : Nat
  ret : Nat
  buf : Nat → Byte

/-- A pass of the loop of `ext2fs_read`. What a failed read leaves in the buffer is not looked at. -/
def readPass (v : Volume σ) : Body Piece (DirState σ) Piece := fun fuel t g =>
  if t.len = 0 then some (.done t g)
  else do
    let logicalBlock := BitVec.ofInt 32 (g.filepos / v.super.blockSize)
    let offset := (g.filepos % v.super.blockSize).toNat
    let (map, g) ← mapBlock v fuel g logicalBlock
    if map.toInt < 0 then some (.done t g)
    else
      let size := min (v.super.blockSize - offset) t.len
      let next (buf : Nat → Byte) (g : DirState σ) : Flow Piece (DirState σ) Piece :=
        .next ⟨t.len - size, t.ret + size, buf⟩ { g with filepos := g.filepos + size }
      if map = 0 then some (next (store t.buf t.ret (List.replicate size 0)) g)
      else
        let (ok, dev) := v.devreadPart g.dev map offset size
        if ok then some (next (store t.buf t.ret (slice (byteAt (v.image map)) offset size)) { g with dev := dev })
        else some (next t.buf (g.faulted v dev))

/-- `ext2fs_read` into the buffer for links. -/
def ext2fsRead (v : Volume σ) (fuel : Nat) (g : DirState σ) (buf : Nat → Byte) (len : Nat) : Option (Nat × (Nat → Byte) × DirState σ) := do
  let (t, g) ← run (readPass v) fuel ⟨len, 0, buf⟩ g
  some (if g.errnum ≠ .none then 0 else t.ret, t.buf, g)

/-- `filepos` where `grub_read` has made it sane. -/
def DirState.sanePos (g : DirState σ) : Int := if g.filepos < 0 ∨ g.filemax < g.filepos then g.filemax else g.filepos

/-- `grub_read` of a link, of `filemax` bytes. -/
def grubReadLink (v : Volume σ) (fuel : Nat) (g : DirState σ) (buf : Nat → Byte) : Option (Nat × (Nat → Byte) × DirState σ) :=
  if g.measureKernel then
    -- the data of a kernel is in memory already, and a link is taken for them
    some (g.filemax.toNat, store buf 0 (slice v.kernel g.sanePos.toNat g.filemax.toNat), { g with filepos := g.sanePos + g.filemax })
  else ext2fsRead v fuel { g with filepos := g.sanePos } buf (g.filemax - g.sanePos).toNat

/-- `ext2_is_fast_symlink`. -/
def isFastSymlink (v : Volume σ) (g : DirState σ) : Bool :=
  g.iBlocks = if g.iFileAcl ≠ 0 then BitVec.ofNat 32 (v.super.blockSize / 512) else 0

/-- `PATH_MAX`. -/
def pathMax : Nat := 1024
/-- `MAX_LINK_COUNT`. -/
def maxLinkCount : Nat := 5
/-- `EXT2_ROOT_INO`. -/
def rootIno : Word := 2

/-- The locals of the loop over the path. `dirname` ends before its zero. -/
structure Path where
  currentIno : Word
  updirIno : Word
  dirname : List Byte
  linkbuf : Nat → Byte
  linkCount : Nat

/-- The name that is left, which ends with a space as well. -/
def Path.remaining (p : Path) : List Byte := p.dirname.takeWhile fun c => !isspace c

/-- The path goes on with the text in the buffer, from the root or from the parent. -/
def Path.relinked (p : Path) (linkbuf : Nat → Byte) : Path :=
  let dirname := (slice linkbuf 0 pathMax).takeWhile (· ≠ 0)
  let ino := if dirname.head? = some 0x2F then rootIno else p.updirIno
  { currentIno := ino, updirIno := ino, dirname := dirname, linkbuf := linkbuf, linkCount := p.linkCount + 1 }

/-- The inode is a symbolic link. A size below zero that passes the test for the length has
the remaining name stored before the buffer, after which nothing is said. -/
def followLink (v : Volume σ) (fuel : Nat) (p : Path) (g : DirState σ) : Option (Flow Path (DirState σ) Int) :=
  if maxLinkCount < p.linkCount + 1 then some (g.fail .symlinkLoop 0)
  else
    let g := { g with filemax := g.iSize.toInt }
    if pathMax - 2 < (g.iSize + BitVec.ofNat 32 p.remaining.length).toNat then some (g.fail .filelength 0)
    else if g.filemax < 0 then none
    else
      let linkbuf := store p.linkbuf g.filemax.toNat (p.remaining ++ [0])
      if isFastSymlink v g then some (.next (p.relinked (store linkbuf 0 (slice (byteAt g.iBlock) 0 g.filemax.toNat))) g)
      else do
        let (len, linkbuf, g) ← grubReadLink v fuel g linkbuf
        let g := { g with filepos := 0 }
        if len = 0 then some (.done 0 g) else some (.next (p.relinked linkbuf) g)

/-! ## Directories -/

/-- `substring`. -/
def substring : List Byte → List Byte → Int
  | [], [] => 0
  | [], _ :: _ => -1
  | _ :: _, [] => 1
  | c :: s, d :: t => if c = d then substring s t else 1

/-- `struct ext2_dir_entry`, with the name as far as a zero. -/
structure DirEntry where
  inode : Word
  recLen : BitVec 16
  name : List Byte

/-- The entry that begins with byte `off`. -/
def dirEntryAt (table : Nat → Word) (off : Nat) : DirEntry where
  inode := wordAt table off
  recLen := halfAt table (off + 4)
  name := (slice (byteAt table) (off + 8) (byteAt table (off + 6)).toNat).takeWhile (· ≠ 0)

/-- What the scan of a directory comes to: the inode, or what is returned. -/
inductive Scanned where
  | found (ino : Word)
  | returns (result : Int)

/-- `print_possibilities && ch != '/'`: all entries are looked at. -/
def DirState.completes (g : DirState σ) (ch : Byte) : Bool := g.printPossibilities ≠ 0 ∧ ch ≠ 0x2F

/-- A name is offered as a completion. -/
def DirState.offer (g : DirState σ) (dirname : List Byte) (ch : Byte) (name : List Byte) : DirState σ :=
  if g.completes ch ∧ (dirname = [] ∨ substring dirname name ≤ 0) then
    { g with
      printPossibilities := if 0 < g.printPossibilities then -g.printPossibilities else g.printPossibilities
      completions := g.completions ++ [name] }
  else g

/-- A pass over a directory's entries, in search of `dirname`, which `ch` ended. -/
def scanPass (v : Volume σ) (dirname : List Byte) (ch : Byte) : Body Word (DirState σ) Scanned := fun fuel loc g =>
  if g.iSize ≤ loc then
    if g.printPossibilities < 0 then some (.done (.returns 1) g) else some (g.fail .fileNotFound (.returns 0))
  else do
    let (map, g) ← mapBlock v fuel g (loc.sshiftRight v.super.blockSizeBits)
    let g := { g with mapblock2 := -1 }
    if map.toInt < 0 then some (.done (.returns 0) g)
    else
      let (ok, s) := rdfsb (v.fs g) g.toState map .datablock2
      let g := { g with toState := s }
      if !ok then some (g.fail .fsysCorrupt (.returns 0))
      else
        let off := loc &&& BitVec.ofNat 32 (v.super.blockSize - 1)
        let dp := dirEntryAt (g.data .datablock2) off.toNat
        let loc := loc + dp.recLen.setWidth 32
        if dp.inode = 0 then some (.next loc g)
        else
          let g := g.offer dirname ch dp.name
          if substring dirname dp.name ≠ 0 ∨ g.completes ch then some (.next loc g) else some (.done (.found dp.inode) g)

/-- The slashes before a name are skipped. -/
def Path.skipped (p : Path) : List Byte := p.dirname.dropWhile (· = 0x2F)

/-- The name up to the next slash or to the end. -/
def Path.name (p : Path) : List Byte := p.skipped.takeWhile fun c => !isspace c && c ≠ 0x2F

def Path.rest (p : Path) : List Byte := p.skipped.dropWhile fun c => !isspace c && c ≠ 0x2F

/-- What ends the name. -/
def Path.ch (p : Path) : Byte := p.rest.headD 0

/-! ## The path -/

/-- The end of the path: `INODE` is the file's. -/
def atEnd (g : DirState σ) : Flow Path (DirState σ) Int :=
  if !g.sIsreg then g.fail .badFiletype 0
  else if g.iFlags &&& hugeFileFl ≠ 0 ∧ g.iSizeHigh = 0 then g.fail .filelength 0
  else .done 1 { g with filemax := g.iSize.toInt }

/-- The next name of the path is looked up in the directory. -/
def enterDirectory (v : Volume σ) (fuel : Nat) (p : Path) (g : DirState σ) : Option (Flow Path (DirState σ) Int) :=
  if g.iSize = 0 ∨ !g.sIsdir then some (g.fail .badFiletype 0)
  else do
    let (scanned, g) ← run (scanPass v p.name p.ch) fuel 0 g
    match scanned with
    | .returns result => some (.done result g)
    | .found ino => some (.next { p with currentIno := ino, updirIno := p.currentIno, dirname := p.rest } g)

/-- A pass of the loop of `ext2fs_dir`. -/
def dirPass (v : Volume σ) : Body Path (DirState σ) Int := fun fuel p g =>
  match lookupInode v g p.currentIno with
  | (some result, g) => some (.done result g)
  | (none, g) =>
    if g.sIslnk then followLink v fuel p g
    else if p.dirname.head?.all isspace then some (atEnd g)
    else enterDirectory v fuel p g

/-- The locals at the start. Nothing has been stored in the buffer for links yet. -/
def Path.start (dirname : List Byte) (linkbuf : Nat → Byte) : Path where
  currentIno := rootIno
  updirIno := rootIno
  dirname := dirname
  linkbuf := linkbuf
  linkCount := 0

/-- `ext2fs_dir`. -/
def ext2fsDir (v : Volume σ) (fuel : Nat) (linkbuf : Nat → Byte) (dirname : List Byte) (g : DirState σ) : Option (Int × DirState σ) :=
  run (dirPass v) fuel (.start dirname linkbuf) g

end TrustedGrub.Ext2
