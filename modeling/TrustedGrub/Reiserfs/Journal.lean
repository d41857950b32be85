import TrustedGrub.Ext2.Dir

/-!
# The journal of a ReiserFS file system

`journal_read`, `block_read` and `journal_init` of `fsys_reiserfs.c`. A transaction is a
descriptor, the blocks it holds and a commit block, one behind the other in a ring of blocks.
The numbers of the blocks are cached in a table as far as there is room.
-/

namespace TrustedGrub.Reiserfs
open Fips180 (Byte Word)
open Disk (GrubError)
open Loop (Body Flow run)
open Memory (slice store)

/-- The bytes of a block, and what lies behind them in a buffer. -/
abbrev Block := Nat → Byte

/-- Word `i` of a block. -/
def wordOf (b : Block) (i : Nat) : Word := b (4 * i + 3) ++ b (4 * i + 2) ++ b (4 * i + 1) ++ b (4 * i)

/-- `JOURNAL_TRANS_HALF`. -/
def journalTransHalf : Nat := 1018

/-- `JOURNAL_DESC_MAGIC`, `"ReIsErLB"`. -/
def journalDescMagic : List Byte := [0x52, 0x65, 0x49, 0x73, 0x45, 0x72, 0x4C, 0x42]

/-- The words from `JOURNAL_START` to `JOURNAL_END`: what `struct fsys_reiser_info` leaves of
8 KiB. -/
def journalWords : Nat := (8192 - 96) / 4

/-! ## The blocks of the journal -/

/-- `j_trans_id` of a descriptor and of a commit block. -/
def jTransId (b : Block) : Word := wordOf b 0
/-- `j_len` of a descriptor and of a commit block. -/
def jLen (b : Block) : Word := wordOf b 1
/-- `j_mount_id` of a descriptor. -/
def jMountId (desc : Block) : Word := wordOf desc 2
/-- `j_realblock` of a descriptor. -/
def descRealblock (desc : Block) (i : Nat) : Word := wordOf desc (3 + i)
/-- `j_realblock` of a commit block. -/
def commitRealblock (commit : Block) (i : Nat) : Word := wordOf commit (2 + i)
/-- `j_magic` of a descriptor, as far as a zero. -/
def jMagic (desc : Block) : List Byte := (slice desc (4 * (3 + journalTransHalf)) 12).takeWhile (· ≠ 0)
/-- `j_last_flush_trans_id` of the header. -/
def jLastFlushTransId (header : Block) : Word := wordOf header 0
/-- `j_first_unflushed_offset` of the header. -/
def jFirstUnflushedOffset (header : Block) : Word := wordOf header 1
/-- `j_mount_id` of the header. -/
def headerMountId (header : Block) : Word := wordOf header 2

/-! ## The disk -/

/-- A disk with what `reiserfs_mount` has read of the superblock. The number of a block
stands for its first sector. -/
structure Image (σ : Type) where
  journalBlock : Word
  journalBlockCount : Word
  image : Word → Block
  /-- `devread` of a block, or of a part of it: `none` delivers it, `some` is what a failure
  leaves in the buffer. -/
  devread : σ → Word → Block → Option Block × σ
  /-- The error that a failure sets. -/
  fault : { errnum : GrubError // errnum ≠ .none }

/-- The part of `INFO` about the journal, with the table behind it. -/
structure State (σ : Type) where
  journalFirstDesc : Word
  journalTransactions : BitVec 16
  journalTable : Nat → Word
  errnum : GrubError
  dev : σ

variable {σ : Type}

/-- `devread`. -/
def devread (d : Image σ) (s : State σ) (blockNr : Word) (buffer : Block) : Bool × Block × State σ :=
  match d.devread s.dev blockNr buffer with
  | (none, dev) => (true, d.image blockNr, { s with dev := dev })
  | (some left, dev) => (false, left, { s with dev := dev, errnum := d.fault })

/-- `journal_read`. -/
def journalRead (d : Image σ) (s : State σ) (block : Word) (buffer : Block) : Bool × Block × State σ :=
  devread d s (d.journalBlock + block) buffer

/-- `journal_block_count - 1`. -/
def Image.journalMask (d : Image σ) : Word := d.journalBlockCount - 1

/-! ## `journal_init` -/

/-- The numbers of the blocks of a transaction. -/
def realblocks (desc commit : Block) : List Word :=
  (List.range (jLen desc).toNat).map fun i =>
    if i < journalTransHalf then descRealblock desc i else commitRealblock commit (i - journalTransHalf)

/-- A transaction is put into the table, or the mark for the end of the table. -/
def cacheTransaction (table : Nat → Word) (journalTable : Nat) (desc commit : Block) : Nat × (Nat → Word) :=
  if journalTable < journalWords then
    if journalWords ≤ journalTable + 1 + (jLen desc).toNat then (journalWords, store table journalTable [0xffffffff])
    else (journalTable + 1 + (jLen desc).toNat, store table journalTable (jLen desc :: realblocks desc commit))
  else (journalTable, table)

/-- The locals of `journal_init`. -/
structure Init where
  descBlock : Word
  nextTransId : Word
  desc : Block
  commit : Block
  journalTable : Nat

/-- A pass of the loop of `journal_init`. Where it breaks off, the result is `next_trans_id`. -/
def initPass (d : Image σ) (header : Block) : Body Init (State σ) Word := fun _ t s =>
  let (_, desc, s) := journalRead d s t.descBlock t.desc
  if 0 < Ext2.substring journalDescMagic (jMagic desc) ∨ jTransId desc ≠ t.nextTransId ∨ jMountId desc ≠ headerMountId header then
    some (.done t.nextTransId s)
  else
    let commitBlock := t.descBlock + jLen desc + 1 &&& d.journalMask
    let (_, commit, s) := journalRead d s commitBlock t.commit
    if jTransId desc ≠ jTransId commit ∨ jLen desc ≠ jLen commit then some (.done t.nextTransId s)
    else
      let (journalTable, table) := cacheTransaction s.journalTable t.journalTable desc commit
      some (.next ⟨commitBlock + 1 &&& d.journalMask, t.nextTransId + 1, desc, commit, journalTable⟩ { s with journalTable := table })

/-- `journal_init`, with what the stack has in place of the locals at first. -/
def journalInit (d : Image σ) (fuel : Nat) (stack : Block) (s : State σ) : Option (Bool × State σ) :=
  let (_, header, s) := journalRead d s d.journalBlockCount stack
  let descBlock := jFirstUnflushedOffset header
  if d.journalBlockCount ≤ descBlock then some (false, s)
  else do
    let s := { s with journalFirstDesc := descBlock }
    let (nextTransId, s) ← run (initPass d header) fuel ⟨descBlock, jLastFlushTransId header + 1, stack, stack, 0⟩ s
    some (s.errnum = .none, { s with journalTransactions := (nextTransId - jLastFlushTransId header - 1).setWidth 16 })

/-! ## `block_read` -/

/-- What the look at a transaction comes to: its length, where in it the block is, counted
from one, and where the table goes on. -/
structure Look where
  jLen : Word
  found : Option Nat
  journalTable : Nat

/-- The place of a block in a list, counted from one. -/
def place (blocks : List Word) (blockNr : Word) : Option Nat := (blocks.findIdx? (· = blockNr)).map (· + 1)

/-- A transaction in the table. -/
def lookCached (s : State σ) (journalTable : Nat) (blockNr : Word) : Look :=
  let len := (s.journalTable journalTable).toInt.toNat
  ⟨s.journalTable journalTable, place (slice s.journalTable (journalTable + 1) len) blockNr, journalTable + 1 + len⟩

/-- A transaction that is read from the disk. -/
def lookDisk (d : Image σ) (s : State σ) (journalTable : Nat) (descBlock blockNr : Word) (stack : Block) : Option Look × State σ :=
  let (ok, desc, s) := journalRead d s descBlock stack
  if !ok then (none, s)
  else
    let len := (jLen desc).toInt.toNat
    match place ((List.range (min len journalTransHalf)).map (descRealblock desc)) blockNr with
    | some i => (some ⟨jLen desc, some i, journalTable⟩, s)
    | none =>
      if journalTransHalf ≤ len then
        let (ok, commit, s) := journalRead d s (descBlock + 1 + jLen desc &&& d.journalMask) stack
        if !ok then (none, s)
        else
          let found := place ((List.range (len - journalTransHalf)).map (commitRealblock commit)) blockNr
          (some ⟨jLen desc, found.map (· + journalTransHalf), journalTable⟩, s)
      else (some ⟨jLen desc, none, journalTable⟩, s)

/-- The loop of `block_read`, which comes to `translatedNr`, or to nothing if a read fails. -/
def translate (d : Image σ) (blockNr : Word) (stack : Block) : Nat → Nat → Word → Word → State σ → Option Word × State σ
  | 0, _, _, translatedNr, s => (some translatedNr, s)
  | transactions + 1, journalTable, descBlock, translatedNr, s =>
    let (look, s) :=
      if s.journalTable journalTable ≠ 0xffffffff then (some (lookCached s journalTable blockNr), s)
      else lookDisk d s journalTable descBlock blockNr stack
    match look with
    | none => (none, s)
    | some look =>
      let translatedNr :=
        match look.found with
        | some i => d.journalBlock + (descBlock + BitVec.ofNat 32 i &&& d.journalMask)
        | none => translatedNr
      translate d blockNr stack transactions look.journalTable (descBlock + 2 + look.jLen &&& d.journalMask) translatedNr s

/-- `block_read` into a buffer. -/
def readBlock (d : Image σ) (stack : Block) (s : State σ) (blockNr : Word) (buffer : Block) : Bool × Block × State σ :=
  match translate d blockNr stack s.journalTransactions.toNat 0 s.journalFirstDesc blockNr s with
  | (none, s) => (false, buffer, s)
  | (some translatedNr, s) => devread d s translatedNr buffer

/-- `block_read`: the bytes, or nothing if zero is returned. -/
def blockRead (d : Image σ) (stack : Block) (s : State σ) (blockNr : Word) (start len : Nat) : Option (List Byte) × State σ :=
  let (ok, block, s) := readBlock d stack s blockNr stack
  (if ok then some (slice block start len) else none, s)

end TrustedGrub.Reiserfs
