import TrustedGrub.Ext2.Dir
import TrustedGrub.Lib.Resolution

/-!
# File systems that are in order

Where the format puts descriptors, inodes and the blocks of a file, and what a file system
in order says of a tree of files, directories and links. Nothing here is taken from the
code but the superblock's fields and the tables of words.
-/

namespace TrustedGrub.Ext2
open Fips180 (Byte Word)
open Disk (isspace)
open Memory (slice)
open Resolution (System)

variable {σ : Type}

/-! ## Inodes -/

/-- The block group of an inode. -/
def Superblock.groupOf (sb : Superblock) (ino : Word) : Nat := (ino.toNat - 1) / sb.sInodesPerGroup.toNat

/-- The number of an inode in its block group. -/
def Superblock.indexOf (sb : Superblock) (ino : Word) : Nat := (ino.toNat - 1) % sb.sInodesPerGroup.toNat

/-- The block with the descriptor of a block group. The descriptors begin behind the superblock. -/
def Superblock.descBlock (sb : Superblock) (group : Nat) : Word := BitVec.ofNat 32 (sb.sFirstDataBlock.toNat + 1 + group / sb.descPerBlock)

/-- The place of the descriptor in its block. -/
def Superblock.descOffset (sb : Superblock) (group : Nat) : Nat := group % sb.descPerBlock * sb.descSize

/-- The first block of a block group's inodes. -/
def Image.inodeTable (d : Image σ) (group : Nat) : Word := wordAt (d.image (d.super.descBlock group)) (d.super.descOffset group + 8)

/-- The upper half of that number, which there is with 64-bit block numbers. -/
def Image.inodeTableHi (d : Image σ) (group : Nat) : Word := wordAt (d.image (d.super.descBlock group)) (d.super.descOffset group + 40)

/-- The block an inode is in. -/
def Image.inodeBlock (d : Image σ) (ino : Word) : Word :=
  d.inodeTable (d.super.groupOf ino) + BitVec.ofNat 32 (d.super.indexOf ino / d.super.inodesPerBlock)

/-- An inode, as a table of words. -/
def Image.inode (d : Image σ) (ino : Word) (i : Nat) : Word :=
  wordAt (d.image (d.inodeBlock ino)) (d.super.indexOf ino % d.super.inodesPerBlock * d.super.inodeSize + 4 * i)

/-! ## The blocks of a file -/

/-- The type in the mode of an inode. -/
def inodeType (t : Nat → Word) : BitVec 16 := (t 0).setWidth 16 &&& 0xF000

/-- The inode's blocks are in extents. -/
def Image.hasExtents (d : Image σ) (t : Nat → Word) : Bool := d.super.hasIncompatFeature incompatExtents && t 8 &&& extentsFl ≠ 0

/-- The file of an inode, as a table of words. A block has no more than 8 KiB. -/
def Image.file (d : Image σ) (t : Nat → Word) : Fs Unit where
  addrBits := min (d.super.blockSizeBits - 2) 11
  addrBits_le := Nat.min_le_right _ _
  iBlock i := t (10 + i)
  image := d.image
  devread _ _ _ := (none, ())

/-- The number of a block of the volume. A partition has less than `2^32` sectors. -/
def IsBlock (b : Word) : Prop := b ≠ 0 ∧ b.toNat < 2 ^ 31

instance (b : Word) : Decidable (IsBlock b) := inferInstanceAs (Decidable (b ≠ 0 ∧ b.toNat < 2 ^ 31))

/-- Pointers to blocks, from the inode's to the last one. -/
def Pointed (image : Word → Nat → Word) : Word → List Nat → Prop
  | ptr, [] => IsBlock ptr
  | ptr, i :: path => IsBlock ptr ∧ Pointed image (image ptr i) path

instance Pointed.decidable (image : Word → Nat → Word) : (ptr : Word) → (path : List Nat) → Decidable (Pointed image ptr path)
  | ptr, [] => inferInstanceAs (Decidable (IsBlock ptr))
  | ptr, i :: path =>
    have := Pointed.decidable image (image ptr i) path
    inferInstanceAs (Decidable (IsBlock ptr ∧ Pointed image (image ptr i) path))

/-- A block of a file is there: pointers lead to it, or an initialised extent covers it. -/
inductive BlockAt (d : Image σ) (t : Nat → Word) (logical : Nat) (b : Word) : Prop where
  | pointers (plain : d.hasExtents t = false) (inReach : (d.file t).InReach logical)
      (pointed : Pointed d.image ((d.file t).root logical) (pathOf (d.file t).addrPerBlock logical).2)
      (walk : walk (d.file t) logical = b) : BlockAt d t logical b
  | extents {depth : Nat} {extents : List Extent} {e : Extent} {leaf : Node} (inTree : d.hasExtents t = true)
      (stored : Stored (d.file t) depth (d.file t).iBlock extents) (entries : ehEntries (d.file t).iBlock ≤ 4)
      (leads : Leads (d.file t) (BitVec.ofNat 32 logical) (d.file t).iBlock leaf)
      (covering : covering extents logical = some e) (start : b.toNat = e.start + (logical - e.block)) (isBlock : IsBlock b) :
      BlockAt d t logical b

/-! ## The tree -/

/-- The length of the name of an entry. -/
def nameLen (table : Nat → Word) (off : Nat) : Nat := (byteAt table (off + 6)).toNat

/-- The entries of a directory from an offset on, to the end of it. No entry reaches over
the end of its block, and a name that is in use is not empty and has no zero in it. -/
inductive Listing (d : Image σ) (t : Nat → Word) (size : Nat) : Nat → List DirEntry → Prop where
  | done : Listing d t size size []
  | entry {loc : Nat} {b : Word} {e : DirEntry} {es : List DirEntry} (inside : loc < size)
      (blockAt : BlockAt d t (loc / d.super.blockSize) b) (eq : e = dirEntryAt (d.image b) (loc % d.super.blockSize))
      (room : 8 + nameLen (d.image b) (loc % d.super.blockSize) ≤ e.recLen.toNat)
      (fits : loc % d.super.blockSize + e.recLen.toNat ≤ d.super.blockSize)
      (named : e.inode ≠ 0 → e.name ≠ [] ∧ e.name.length = nameLen (d.image b) (loc % d.super.blockSize))
      (rest : Listing d t size (loc + e.recLen.toNat) es) : Listing d t size loc (e :: es)

/-- The entries in use. -/
def liveEntries (es : List DirEntry) : List (List Byte × Word) := (es.filter (·.inode ≠ 0)).map fun e => (e.name, e.inode)

/-- A link's text is in the inode: no block belongs to it, but one for attributes. -/
def Image.isFast (d : Image σ) (t : Nat → Word) : Bool :=
  t 7 = if t 26 ≠ 0 then BitVec.ofNat 32 (d.super.blockSize / 512) else 0

/-- The size of a file, of 64 bits. -/
def fileSize (t : Nat → Word) : Nat := (t 1).toNat + 2 ^ 32 * (t 27).toNat

/-- What an inode and its blocks say of a node. -/
inductive OnDisk (d : Image σ) (t : Nat → Word) : Resolution.Node Word Byte → Prop where
  | file (type : inodeType t = 0x8000) : OnDisk d t (.file (fileSize t))
  | dir {es : List DirEntry} (type : inodeType t = 0x4000) (size_pos : 0 < (t 1).toNat) (size_lt : (t 1).toNat < 2 ^ 31)
      (listing : Listing d t (t 1).toNat 0 es) : OnDisk d t (.dir (liveEntries es))
  | fastLink {target : List Byte} (type : inodeType t = 0xA000) (size_pos : 0 < (t 1).toNat) (size_le : (t 1).toNat ≤ 60)
      (fast : d.isFast t) (text : target = slice (byteAt fun i => t (10 + i)) 0 (t 1).toNat) (clean : ∀ c ∈ target, c ≠ 0) :
      OnDisk d t (.link target)
  | slowLink {target : List Byte} {b : Word} (type : inodeType t = 0xA000) (size_pos : 0 < (t 1).toNat)
      (size_le : (t 1).toNat ≤ d.super.blockSize) (slow : ¬ d.isFast t) (blockAt : BlockAt d t 0 b)
      (text : target = slice (byteAt (d.image b)) 0 (t 1).toNat) (clean : ∀ c ∈ target, c ≠ 0) : OnDisk d t (.link target)
  | other (type : inodeType t ≠ 0x8000 ∧ inodeType t ≠ 0x4000 ∧ inodeType t ≠ 0xA000) : OnDisk d t .other

/-- The features that may be marked as incompatible and leave the layout as it is here: the types in
directory entries, a journal to be replayed, extents, 64-bit block numbers, and groups that keep
their tables elsewhere. -/
def knownFeatures : Word := 0x2 ||| 0x4 ||| incompatExtents ||| incompat64bit ||| 0x200

/-- A file system is in order: the nodes in use are on the disk as the format has it. -/
structure Consistent (d : Image σ) (inUse : Word → Prop) (node : Word → Resolution.Node Word Byte) : Prop where
  features : d.super.sFeatureIncompat &&& ~~~knownFeatures = 0
  blockSize : 10 ≤ d.super.blockSizeBits ∧ d.super.blockSizeBits ≤ 13
  descSize : ∃ k ≤ d.super.blockSizeBits, d.super.descSize = 2 ^ k
  inodeSize : ∃ k ≤ d.super.blockSizeBits, d.super.inodeSize = 2 ^ k
  inodesPerGroup : d.super.sInodesPerGroup ≠ 0
  inodesPerBlock : d.super.inodesPerBlock ∣ d.super.sInodesPerGroup.toNat
  groups : ∀ ino, inUse ino → ino ≠ 0 ∧ d.super.groupOf ino < 2 ^ 31
  /-- The numbers of a partition's blocks have no more than 32 bits. -/
  near : d.super.hasIncompatFeature incompat64bit → ∀ ino, inUse ino → d.inodeTableHi (d.super.groupOf ino) = 0
  root : inUse rootIno
  onDisk : ∀ ino, inUse ino → OnDisk d (d.inode ino) (node ino)
  closed : ∀ ino entries, inUse ino → node ino = .dir entries → ∀ e ∈ entries, inUse e.2

/-- Paths on the file system, with the limits that `ext2fs_dir` has. -/
def pathSystem (node : Word → Resolution.Node Word Byte) : System Word Byte where
  node := node
  root := rootIno
  slash := 0x2F
  ends _ := false
  maxLinks := maxLinkCount
  maxLength := pathMax - 2

/-- The path at the beginning of a command's text. -/
def pathOfText (text : List Byte) : List Byte := text.takeWhile fun c => !isspace c

end TrustedGrub.Ext2
