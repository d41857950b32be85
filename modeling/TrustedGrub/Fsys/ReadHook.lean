import TrustedGrub.Disk.BlockName
import TrustedGrub.Lib.Loop

/-!
# The instrumentation of file reads

While a driver reads the data of a file, `disk_read_func` is the hook that a command has
installed as `disk_read_hook`, and every sector that is read is reported to it. The read
functions of all drivers are here, as `grub_read` calls them, with what they call as
parameters: no function but these assigns `disk_read_func`.
-/

namespace TrustedGrub.Fsys
open Disk (GrubError)
open Loop (Flow loop)

/-- The globals that the read functions test, and everything else. -/
structure Env (ω : Type) where
  errnum : GrubError
  filepos : Int
  rest : ω
  deriving DecidableEq

/-- `η` is the type of the functions that sectors are reported to. -/
structure Globals (η ω : Type) where
  diskReadFunc : Option η
  diskReadHook : Option η
  env : Env ω
  deriving DecidableEq

/-- A function that is called, with `disk_read_func` as it is. -/
abbrev Callee (η ω α : Type) := Option η → Env ω → α × Env ω

/-- `devread` of a sector, from an offset on, for a number of bytes, to a place in the
caller's buffer. -/
abbrev Devread (η ω : Type) := Int → Int → Int → Int → Callee η ω Bool

variable {η ω α : Type}

def Globals.call (g : Globals η ω) (f : Callee η ω α) : α × Globals η ω :=
  let (a, env) := f g.diskReadFunc g.env
  (a, { g with env := env })

/-- `disk_read_func = disk_read_hook;` -/
def Globals.armed (g : Globals η ω) : Globals η ω := { g with diskReadFunc := g.diskReadHook }

/-- `disk_read_func = NULL;` -/
def Globals.cleared (g : Globals η ω) : Globals η ω := { g with diskReadFunc := none }

/-- `filepos += n;` -/
def Globals.advanced (g : Globals η ω) (n : Int) : Globals η ω := { g with env := { g.env with filepos := g.env.filepos + n } }

/-- A call between the two assignments. -/
def Globals.hooked (g : Globals η ω) (f : Callee η ω α) : Globals η ω := (g.armed.call f).2.cleared

/-- `errnum ? 0 : ret` -/
def Globals.unlessErrnum (g : Globals η ω) (ret : Int) : Int := if g.env.errnum ≠ .none then 0 else ret

/-! ## Readers that go from block to block -/

/-- The branch of `grub_read` for block lists. `locate` follows the list to `filepos`, and
says in which sector and at which offset that is, and how many bytes are left in the
extent. -/
def blockFileRead (devread : Devread η ω) (locate : Callee η ω (Int × Int × Int)) (fuel : Nat) (len : Int) (g : Globals η ω) :
    Option (Int × Globals η ω) :=
  loop (fun (len, ret) g =>
    if len = 0 ∨ g.env.errnum ≠ .none then .done (g.unlessErrnum ret) g
    else
      let ((sector, off, size), g) := g.call locate
      let size := min size len
      .next (len - size, ret + size) ((g.hooked (devread sector off size ret)).advanced size)) fuel (len, 0) g

/-- How `fat_read` comes to a cluster. -/
inductive Walk where
  | cluster (sector : Int)
  | eof
  | error

/-- `fat_read`. `walk` goes along the chain of clusters, `readRoot` is the branch for the
root directory of FAT12 and FAT16. -/
def fatRead (devread : Devread η ω) (isRoot : ω → Bool) (clustsizeBits : Nat) (walk : Int → Callee η ω Walk)
    (readRoot : Int → Callee η ω Int) (fuel : Nat) (len : Int) (g : Globals η ω) : Option (Int × Globals η ω) :=
  if isRoot g.env.rest then some (g.call (readRoot len))
  else
    loop (fun (logicalClust, offset, len, ret) g =>
      if len ≤ 0 then .done (g.unlessErrnum ret) g
      else
        match g.call (walk logicalClust) with
        | (.eof, g) => .done ret g
        | (.error, g) => .done 0 g
        | (.cluster sector, g) =>
          let size := min (2 ^ clustsizeBits - offset) len
          .next (logicalClust + 1, 0, len - size, ret + size) ((g.hooked (devread sector offset size ret)).advanced size))
      fuel (g.env.filepos >>> clustsizeBits, g.env.filepos % 2 ^ clustsizeBits, len, 0) g

/-- `ext2fs_read`. -/
def ext2fsRead (devread : Devread η ω) (blockSizeBits : Nat) (blockMap : Int → Callee η ω Int) (memset : Int → Int → Callee η ω Unit)
    (fuel : Nat) (len : Int) (g : Globals η ω) : Option (Int × Globals η ω) :=
  loop (fun (len, ret) g =>
    if len ≤ 0 then .done (g.unlessErrnum ret) g
    else
      let offset := g.env.filepos % 2 ^ blockSizeBits
      let (map, g) := g.call (blockMap (g.env.filepos >>> blockSizeBits))
      if map < 0 then .done (g.unlessErrnum ret) g
      else
        let size := min (2 ^ blockSizeBits - offset) len
        let g :=
          if map = 0 then (g.call (memset ret size)).2
          else g.hooked (devread (map * (2 ^ blockSizeBits / 512)) offset size ret)
        .next (len - size, ret + size) (g.advanced size)) fuel (len, 0) g

/-- `minix_read`. -/
def minixRead (devread : Devread η ω) (blockMap : Int → Callee η ω Int) (fuel : Nat) (len : Int) (g : Globals η ω) :
    Option (Int × Globals η ω) :=
  loop (fun (len, ret) g =>
    if len ≤ 0 then .done (g.unlessErrnum ret) g
    else
      let offset := g.env.filepos % 1024
      let (map, g) := g.call (blockMap (g.env.filepos >>> (10 : Nat)))
      if map < 0 then .done (g.unlessErrnum ret) g
      else
        let size := min (1024 - offset) len
        .next (len - size, ret + size) ((g.hooked (devread (map * 2) offset size ret)).advanced size)) fuel (len, 0) g

/-- `ffs_read` and `ufs2_read`. `geometry` is `blkoff`, `lblkno` and `blksize` of a file
position, `fsbtodb` the sector of a block. -/
def ffsRead (devread : Devread η ω) (geometry : ω → Int → Int × Int × Int) (blockMap : Int → Callee η ω Int) (fsbtodb : ω → Int → Int)
    (fuel : Nat) (len : Int) (g : Globals η ω) : Option (Int × Globals η ω) :=
  loop (fun (len, ret) g =>
    if len = 0 ∨ g.env.errnum ≠ .none then .done (g.unlessErrnum ret) g
    else
      let (off, logno, size) := geometry g.env.rest g.env.filepos
      let (map, g) := g.call (blockMap logno)
      if map < 0 then .done (g.unlessErrnum ret) g
      else
        let size := min (size - off) len
        .next (len - size, ret + size) ((g.hooked (devread (fsbtodb g.env.rest map) off size ret)).advanced size)) fuel (len, 0) g

/-! ## Readers that go from extent to extent -/

structure Xad where
  offset : Int
  len : Int
  start : Int

/-- `isinxt (key, offset, len)`. -/
def Xad.isinxt (xad : Xad) (key : Int) : Bool := xad.offset ≤ key ∧ key < xad.offset + xad.len

/-- The part of `jfs_read` and `xfs_read` for one extent: whether the next one is wanted,
and what is left of the request, with the place in the caller's buffer. `daddr` is the
sector of an extent. -/
def readExtent (devread : Devread η ω) (bits : Nat) (daddr : Int → Int) (zero : Int → Int → Callee η ω Unit) (endpos : Int) (xad : Xad)
    (endofprev len buf : Int) (g : Globals η ω) : Bool × Int × Int × Globals η ω :=
  if xad.isinxt (g.env.filepos >>> bits) then
    let endofcur := (xad.offset + xad.len) * 2 ^ bits
    let toread := if endpos ≤ endofcur then len else endofcur - g.env.filepos
    let g := g.hooked (devread (daddr xad.start) (g.env.filepos - xad.offset * 2 ^ bits) toread buf)
    (true, len - toread, buf + toread, g.advanced toread)
  else if endofprev < xad.offset then
    let toread := if endpos ≤ xad.offset * 2 ^ bits then len else (xad.offset - endofprev) * 2 ^ bits
    let g := g.advanced toread
    (false, len - toread, buf + toread, (g.call (zero buf toread)).2)
  else (true, len, buf, g)

/-- `jfs_read`. -/
def jfsRead (devread : Devread η ω) (bits : Nat) (daddr : Int → Int) (zero : Int → Int → Callee η ω Unit)
    (firstExtent : Callee η ω Xad) (nextExtent : Callee η ω (Option Xad)) (fuel : Nat) (len : Int) (g : Globals η ω) :
    Option (Int × Globals η ω) :=
  let startpos := g.env.filepos
  let endpos := startpos + len
  let (xad, g) := g.call firstExtent
  loop (fun (xad, endofprev, len, buf) g =>
    let (finished, len, buf, g) := readExtent devread bits daddr zero endpos xad endofprev len buf g
    if finished then
      match g.call nextExtent with
      | (none, g) => .done (g.env.filepos - startpos) g
      | (some xad', g) =>
        if 0 < len then .next (xad', xad.offset + xad.len, len, buf) g else .done (g.env.filepos - startpos) g
    else if 0 < len then .next (xad, endofprev, len, buf) g
    else .done (g.env.filepos - startpos) g) fuel (xad, 2 ^ 62 - 1, len, 0) g

/-- `xfs_read`. `local` is the branch for files in the inode. -/
def xfsRead (devread : Devread η ω) (bits : Nat) (daddr : Int → Int) (zero : Int → Int → Callee η ω Unit) (isLocal : ω → Bool)
    (copyLocal : Int → Callee η ω Unit) (initExtents : Callee η ω Unit) (nextExtent : Callee η ω (Option Xad)) (fuel : Nat) (len : Int)
    (g : Globals η ω) : Option (Int × Globals η ω) :=
  if isLocal g.env.rest then some (len, (g.call (copyLocal len)).2.advanced len)
  else
    let startpos := g.env.filepos
    let endpos := startpos + len
    loop (fun (endofprev, len, buf) g =>
      if len ≤ 0 then .done (g.env.filepos - startpos) g
      else
        match g.call nextExtent with
        | (none, g) => .done (g.env.filepos - startpos) g
        | (some xad, g) =>
          let (finished, len, buf, g) := readExtent devread bits daddr zero endpos xad endofprev len buf g
          .next (if finished then xad.offset + xad.len else endofprev, len, buf) g)
      fuel (2 ^ 64 - 1, len, 0) (g.call initExtents).2

/-! ## The other readers -/

/-- A pass through the loop of `iso9660_read`. Its sectors have `2^11` bytes. -/
def iso9660Pass (devread : Devread η ω) (fileStart : ω → Int) (sector blkoffset len ret : Int) (g : Globals η ω) :
    Flow (Int × Int × Int × Int) (Globals η ω) Int :=
  if len ≤ 0 then .done ret g
  else
    let size := min (2 ^ 11 - blkoffset) len
    let (ok, g) := g.armed.call (devread (fileStart g.env.rest + sector) blkoffset size ret)
    if !ok then .done 0 g
    else .next (sector + 1, 0, len - size, ret + size) (g.cleared.advanced size)

/-- `iso9660_read`. -/
def iso9660Read (devread : Devread η ω) (fileStart : ω → Int) (fuel : Nat) (len : Int) (g : Globals η ω) : Option (Int × Globals η ω) :=
  if fileStart g.env.rest = 0 then some (0, g)
  else
    loop (fun (sector, blkoffset, len, ret) => iso9660Pass devread fileStart sector blkoffset len ret)
      fuel (g.env.filepos >>> (11 : Nat), g.env.filepos % 2 ^ 11, len, 0) g

/-- The fields of an NTFS attribute that `ntfs_read` tests. -/
structure Attr where
  size : Int
  normal : Bool
  encrypted : Bool
  compressed : Bool
  resident : Bool

/-- `ntfs_read`. `decompress` is its branch for compressed attributes that are not resident. -/
def ntfsRead (cmft : ω → Attr) (readAttribute : Int → Int → Callee η ω Int) (decompress : Int → Callee η ω Int) (len : Int)
    (g : Globals η ω) : Int × Globals η ω :=
  let attr := cmft g.env.rest
  if len ≤ 0 ∨ attr.size ≤ g.env.filepos ∨ attr.encrypted = true then (0, g)
  else
    let len := min len (attr.size - g.env.filepos)
    if attr.compressed = true ∧ attr.resident = false then g.call (decompress len)
    else
      let g := if attr.normal then g.armed else g
      let (ret, g) := g.call (readAttribute g.env.filepos len)
      let g := if attr.normal then g.cleared else g
      (ret, g.advanced ret)

/-- `INFO->current_ih`, with the file's key compared. -/
structure ItemHead where
  sameObject : Bool
  keyOffset : Int
  itemLen : Int
  isDirect : Bool
  isIndirect : Bool

/-- Where `reiserfs_read` is: at the loop over items, at the one over the blocks of an item,
at the label `update_buf_len` with the number of bytes just read, or at `get_next_key`. -/
inductive ReiserLabel where
  | items
  | blocks (offset blocksize : Int)
  | updateBufLen (toRead offset blocksize : Int)
  | getNextKey

/-- From one label of `reiserfs_read` to the next. `blockRead` is `block_read` from the leaf,
`copyItem` the copy from the leaf in memory, `blocknr` the number of the block that an item
has for an offset. -/
def reiserfsPass (devread : Devread η ω) (ih : ω → ItemHead) (nextKey : Callee η ω Unit)
    (blockRead copyItem : Int → Int → Int → Callee η ω Unit) (blocknr : ω → Int → Int) (blocksizeShift fullblocksizeShift : Nat)
    (label : ReiserLabel) (len buf : Int) (g : Globals η ω) : Flow (ReiserLabel × Int × Int) (Globals η ω) Int :=
  match label with
  | .items =>
    let head := ih g.env.rest
    let offset := (g.env.filepos - head.keyOffset + 1) % 2 ^ 32
    if g.env.errnum ≠ .none ∨ head.sameObject = false then .done (g.unlessErrnum buf) g
    else if head.isDirect = true ∧ offset < head.itemLen then
      let toRead := min (head.itemLen - offset) len
      let g := if g.diskReadHook.isSome then g.hooked (blockRead offset toRead buf) else (g.call (copyItem offset toRead buf)).2
      .next (.updateBufLen toRead offset head.itemLen, len, buf) g
    else if head.isIndirect then .next (.blocks offset ((head.itemLen >>> (2 : Nat)) * 2 ^ fullblocksizeShift), len, buf) g
    else .next (.getNextKey, len, buf) g
  | .blocks offset blocksize =>
    if offset < blocksize then
      let blkOffset := offset % 2 ^ fullblocksizeShift
      let toRead := min (2 ^ fullblocksizeShift - blkOffset) len
      let g := g.hooked (devread (blocknr g.env.rest (offset >>> fullblocksizeShift) * 2 ^ blocksizeShift) blkOffset toRead buf)
      .next (.updateBufLen toRead offset blocksize, len, buf) g
    else .next (.getNextKey, len, buf) g
  | .updateBufLen toRead offset blocksize =>
    let g := g.advanced toRead
    if len = toRead then .done (g.unlessErrnum (buf + toRead)) g
    else .next (.blocks ((offset + toRead) % 2 ^ 32) blocksize, len - toRead, buf + toRead) g
  | .getNextKey => .next (.items, len, buf) (g.call nextKey).2

/-- `reiserfs_read`. -/
def reiserfsRead (devread : Devread η ω) (ih : ω → ItemHead) (searchStat nextKey : Callee η ω Unit)
    (blockRead copyItem : Int → Int → Int → Callee η ω Unit) (blocknr : ω → Int → Int) (blocksizeShift fullblocksizeShift : Nat)
    (fuel : Nat) (len : Int) (g : Globals η ω) : Option (Int × Globals η ω) :=
  let pass := fun (label, len, buf) =>
    reiserfsPass devread ih nextKey blockRead copyItem blocknr blocksizeShift fullblocksizeShift label len buf
  if !(ih g.env.rest).sameObject || decide (g.env.filepos + 1 < (ih g.env.rest).keyOffset) then
    loop pass fuel (.getNextKey, len, 0) (g.call searchStat).2
  else loop pass fuel (.items, len, 0) g

/-- The readers that `grub_read` can come to, each with what it calls. -/
inductive Reader (η ω : Type) where
  | blockFile (devread : Devread η ω) (locate : Callee η ω (Int × Int × Int))
  | fat (devread : Devread η ω) (isRoot : ω → Bool) (clustsizeBits : Nat) (walk : Int → Callee η ω Walk)
    (readRoot : Int → Callee η ω Int)
  | ntfs (cmft : ω → Attr) (readAttribute : Int → Int → Callee η ω Int) (decompress : Int → Callee η ω Int)
  | ext2fs (devread : Devread η ω) (blockSizeBits : Nat) (blockMap : Int → Callee η ω Int) (memset : Int → Int → Callee η ω Unit)
  | minix (devread : Devread η ω) (blockMap : Int → Callee η ω Int)
  | reiserfs (devread : Devread η ω) (ih : ω → ItemHead) (searchStat nextKey : Callee η ω Unit)
    (blockRead copyItem : Int → Int → Int → Callee η ω Unit) (blocknr : ω → Int → Int) (blocksizeShift fullblocksizeShift : Nat)
  | jfs (devread : Devread η ω) (bits : Nat) (daddr : Int → Int) (zero : Int → Int → Callee η ω Unit) (firstExtent : Callee η ω Xad)
    (nextExtent : Callee η ω (Option Xad))
  | xfs (devread : Devread η ω) (bits : Nat) (daddr : Int → Int) (zero : Int → Int → Callee η ω Unit) (isLocal : ω → Bool)
    (copyLocal : Int → Callee η ω Unit) (initExtents : Callee η ω Unit) (nextExtent : Callee η ω (Option Xad))
  | ufs2 (devread : Devread η ω) (geometry : ω → Int → Int × Int × Int) (blockMap : Int → Callee η ω Int) (fsbtodb : ω → Int → Int)
  | iso9660 (devread : Devread η ω) (fileStart : ω → Int)
  | ffs (devread : Devread η ω) (geometry : ω → Int → Int × Int × Int) (blockMap : Int → Callee η ω Int) (fsbtodb : ω → Int → Int)
  /-- `vstafs_read` and `tftp_read` leave `disk_read_func` alone. -/
  | other (read : Int → Callee η ω Int)

/-- The read function of a driver, or the branch of `grub_read` for block lists. -/
def Reader.read (fuel : Nat) (len : Int) (g : Globals η ω) : Reader η ω → Option (Int × Globals η ω)
  | blockFile devread locate => blockFileRead devread locate fuel len g
  | fat devread isRoot clustsizeBits walk readRoot => fatRead devread isRoot clustsizeBits walk readRoot fuel len g
  | ntfs cmft readAttribute decompress => some (ntfsRead cmft readAttribute decompress len g)
  | ext2fs devread blockSizeBits blockMap memset => ext2fsRead devread blockSizeBits blockMap memset fuel len g
  | minix devread blockMap => minixRead devread blockMap fuel len g
  | reiserfs devread ih searchStat nextKey blockRead copyItem blocknr blocksizeShift fullblocksizeShift =>
    reiserfsRead devread ih searchStat nextKey blockRead copyItem blocknr blocksizeShift fullblocksizeShift fuel len g
  | jfs devread bits daddr zero firstExtent nextExtent => jfsRead devread bits daddr zero firstExtent nextExtent fuel len g
  | xfs devread bits daddr zero isLocal copyLocal initExtents nextExtent =>
    xfsRead devread bits daddr zero isLocal copyLocal initExtents nextExtent fuel len g
  | ufs2 devread geometry blockMap fsbtodb => ffsRead devread geometry blockMap fsbtodb fuel len g
  | iso9660 devread fileStart => iso9660Read devread fileStart fuel len g
  | ffs devread geometry blockMap fsbtodb => ffsRead devread geometry blockMap fsbtodb fuel len g
  | other read => some (g.call (read len))

/-! ## What is kept -/

/-- No sector is reported. -/
def Globals.Silent (g : Globals η ω) : Prop := g.diskReadFunc = none

variable {g g' : Globals η ω} {fuel : Nat} {len ret : Int}

@[simp] theorem call_silent (f : Callee η ω α) : (g.call f).2.Silent ↔ g.Silent := Iff.rfl
@[simp] theorem cleared_silent : g.cleared.Silent := rfl
@[simp] theorem hooked_silent (f : Callee η ω α) : (g.hooked f).Silent := rfl
@[simp] theorem advanced_silent (n : Int) : (g.advanced n).Silent ↔ g.Silent := Iff.rfl
theorem blockFileRead_silent {devread : Devread η ω} {locate : Callee η ω (Int × Int × Int)}
    (h : blockFileRead devread locate fuel len g = some (ret, g')) (hg : g.Silent) : g'.Silent := by
  refine Loop.loop_keeps (fun ⟨len, ret⟩ g hg => ?_) h hg
  dsimp only
  split
  next => exact hg
  next => simp [Flow.state]

theorem fatRead_silent {devread : Devread η ω} {isRoot : ω → Bool} {clustsizeBits : Nat} {walk : Int → Callee η ω Walk}
    {readRoot : Int → Callee η ω Int} (h : fatRead devread isRoot clustsizeBits walk readRoot fuel len g = some (ret, g'))
    (hg : g.Silent) : g'.Silent := by
  unfold fatRead at h
  split at h
  next =>
    cases h
    exact hg
  next =>
    refine Loop.loop_keeps (fun ⟨logicalClust, offset, len, ret⟩ g hg => ?_) h hg
    dsimp only
    split
    next => exact hg
    next =>
      have hwalk : (g.call (walk logicalClust)).2.Silent := by simpa using hg
      generalize g.call (walk logicalClust) = walked at hwalk
      split
      next => exact hwalk
      next => exact hwalk
      next => simp [Flow.state]

theorem ext2fsRead_silent {devread : Devread η ω} {blockSizeBits : Nat} {blockMap : Int → Callee η ω Int}
    {memset : Int → Int → Callee η ω Unit} (h : ext2fsRead devread blockSizeBits blockMap memset fuel len g = some (ret, g'))
    (hg : g.Silent) : g'.Silent := by
  refine Loop.loop_keeps (fun ⟨len, ret⟩ g hg => ?_) h hg
  dsimp only
  split_ifs
  · exact hg
  · simpa [Flow.state] using hg
  · simpa [Flow.state] using hg
  · simp [Flow.state]

theorem minixRead_silent {devread : Devread η ω} {blockMap : Int → Callee η ω Int}
    (h : minixRead devread blockMap fuel len g = some (ret, g')) (hg : g.Silent) : g'.Silent := by
  refine Loop.loop_keeps (fun ⟨len, ret⟩ g hg => ?_) h hg
  dsimp only
  split_ifs
  · exact hg
  · simpa [Flow.state] using hg
  · simp [Flow.state]

theorem ffsRead_silent {devread : Devread η ω} {geometry : ω → Int → Int × Int × Int} {blockMap : Int → Callee η ω Int}
    {fsbtodb : ω → Int → Int} (h : ffsRead devread geometry blockMap fsbtodb fuel len g = some (ret, g')) (hg : g.Silent) :
    g'.Silent := by
  refine Loop.loop_keeps (fun ⟨len, ret⟩ g hg => ?_) h hg
  dsimp only
  split_ifs
  · exact hg
  · simpa [Flow.state] using hg
  · simp [Flow.state]

theorem readExtent_silent (devread : Devread η ω) (bits : Nat) (daddr : Int → Int) (zero : Int → Int → Callee η ω Unit) (endpos : Int)
    (xad : Xad) (endofprev len buf : Int) (hg : g.Silent) :
    (readExtent devread bits daddr zero endpos xad endofprev len buf g).2.2.2.Silent := by
  unfold readExtent
  split
  next => simp
  next =>
    split
    next => exact hg
    next => exact hg

theorem jfsRead_silent {devread : Devread η ω} {bits : Nat} {daddr : Int → Int} {zero : Int → Int → Callee η ω Unit}
    {firstExtent : Callee η ω Xad} {nextExtent : Callee η ω (Option Xad)}
    (h : jfsRead devread bits daddr zero firstExtent nextExtent fuel len g = some (ret, g')) (hg : g.Silent) : g'.Silent := by
  unfold jfsRead at h
  have hfirst : (g.call firstExtent).2.Silent := hg
  refine Loop.loop_keeps (fun ⟨xad, endofprev, len', buf⟩ g₁ hg₁ => ?_) h hfirst
  have hread := readExtent_silent devread bits daddr zero (g.env.filepos + len) xad endofprev len' buf hg₁
  dsimp only
  generalize readExtent devread bits daddr zero (g.env.filepos + len) xad endofprev len' buf g₁ = result at hread
  obtain ⟨finished, left, at', g₂⟩ := result
  split
  next =>
    have hnext : (g₂.call nextExtent).2.Silent := hread
    dsimp only
    generalize g₂.call nextExtent = answer at hnext
    split
    next => exact hnext
    next =>
      split
      next => exact hnext
      next => exact hnext
  next =>
    split
    next => exact hread
    next => exact hread

theorem xfsRead_silent {devread : Devread η ω} {bits : Nat} {daddr : Int → Int} {zero : Int → Int → Callee η ω Unit}
    {isLocal : ω → Bool} {copyLocal : Int → Callee η ω Unit} {initExtents : Callee η ω Unit} {nextExtent : Callee η ω (Option Xad)}
    (h : xfsRead devread bits daddr zero isLocal copyLocal initExtents nextExtent fuel len g = some (ret, g')) (hg : g.Silent) :
    g'.Silent := by
  unfold xfsRead at h
  split at h
  next =>
    cases h
    exact hg
  next =>
    have hinit : (g.call initExtents).2.Silent := hg
    refine Loop.loop_keeps (fun ⟨endofprev, len', buf⟩ g₁ hg₁ => ?_) h hinit
    dsimp only
    split
    next => exact hg₁
    next =>
      have hnext : (g₁.call nextExtent).2.Silent := hg₁
      generalize g₁.call nextExtent = answer at hnext
      split
      next => exact hnext
      next => exact readExtent_silent _ _ _ _ _ _ _ _ _ hnext

theorem ntfsRead_silent (cmft : ω → Attr) (readAttribute : Int → Int → Callee η ω Int) (decompress : Int → Callee η ω Int) (len : Int)
    (hg : g.Silent) : (ntfsRead cmft readAttribute decompress len g).2.Silent := by
  unfold ntfsRead
  dsimp only
  split
  next => exact hg
  next =>
    split
    next => exact hg
    next =>
      cases (cmft g.env.rest).normal with
      | true => simp
      | false => exact hg

theorem reiserfsPass_silent (devread : Devread η ω) (ih : ω → ItemHead) (nextKey : Callee η ω Unit)
    (blockRead copyItem : Int → Int → Int → Callee η ω Unit) (blocknr : ω → Int → Int) (blocksizeShift fullblocksizeShift : Nat)
    (label : ReiserLabel) (len buf : Int) (hg : g.Silent) :
    (reiserfsPass devread ih nextKey blockRead copyItem blocknr blocksizeShift fullblocksizeShift label len buf g).state.Silent := by
  cases label with
  | items =>
    simp only [reiserfsPass]
    split
    next => exact hg
    next =>
      split
      next =>
        split
        next => simp [Flow.state]
        next => exact hg
      next =>
        split
        next => exact hg
        next => exact hg
  | blocks offset blocksize =>
    simp only [reiserfsPass]
    split
    next => simp [Flow.state]
    next => exact hg
  | updateBufLen toRead offset blocksize =>
    simp only [reiserfsPass]
    split
    next => exact hg
    next => exact hg
  | getNextKey => exact hg

theorem reiserfsRead_silent {devread : Devread η ω} {ih : ω → ItemHead} {searchStat nextKey : Callee η ω Unit}
    {blockRead copyItem : Int → Int → Int → Callee η ω Unit} {blocknr : ω → Int → Int} {blocksizeShift fullblocksizeShift : Nat}
    (h : reiserfsRead devread ih searchStat nextKey blockRead copyItem blocknr blocksizeShift fullblocksizeShift fuel len g =
      some (ret, g')) (hg : g.Silent) : g'.Silent := by
  have hpass (t : ReiserLabel × Int × Int) (g : Globals η ω) (hg : g.Silent) :
      (reiserfsPass devread ih nextKey blockRead copyItem blocknr blocksizeShift fullblocksizeShift t.1 t.2.1 t.2.2 g).state.Silent :=
    reiserfsPass_silent _ _ _ _ _ _ _ _ _ _ _ hg
  unfold reiserfsRead at h
  dsimp only at h
  split at h
  next => exact Loop.loop_keeps hpass h (show (g.call searchStat).2.Silent from hg)
  next => exact Loop.loop_keeps hpass h hg

/-! ## The one that does not clear -/

/-- Every read succeeds that `iso9660_read` makes for the rest of a request. -/
def isoReads (devread : Devread η ω) (fileStart : ω → Int) (hook : Option η) : Nat → (sector blkoffset len ret : Int) → Env ω → Bool
  | 0, _, _, _, _, _ => true
  | fuel + 1, sector, blkoffset, len, ret, env =>
    if len ≤ 0 then true
    else
      let size := min (2 ^ 11 - blkoffset) len
      let (ok, env) := devread (fileStart env.rest + sector) blkoffset size ret hook env
      ok && isoReads devread fileStart hook fuel (sector + 1) 0 (len - size) (ret + size) { env with filepos := env.filepos + size }

/-- The reads of the whole request. -/
def IsoSucceeds (devread : Devread η ω) (fileStart : ω → Int) (fuel : Nat) (len : Int) (g : Globals η ω) : Prop :=
  isoReads devread fileStart g.diskReadHook fuel (g.env.filepos >>> (11 : Nat)) (g.env.filepos % 2 ^ 11) len 0 g.env = true

theorem iso9660Loop_silent_iff {devread : Devread η ω} {fileStart : ω → Int} {sector blkoffset buf : Int}
    (h : loop (fun (sector, blkoffset, len, ret) => iso9660Pass devread fileStart sector blkoffset len ret) fuel
      (sector, blkoffset, len, buf) g = some (ret, g')) (hg : g.Silent) :
    g'.Silent ↔ g.diskReadHook = none ∨ isoReads devread fileStart g.diskReadHook fuel sector blkoffset len buf g.env = true := by
  induction fuel generalizing sector blkoffset len buf g with
  | zero => cases h
  | succ fuel ih =>
    simp only [loop, iso9660Pass, Globals.call, Globals.armed] at h
    simp only [isoReads]
    by_cases hlen : len ≤ 0
    · simp only [if_pos hlen] at h ⊢
      obtain ⟨-, rfl⟩ := Prod.mk.inj (Option.some.inj h)
      exact iff_of_true hg (.inr trivial)
    · simp only [if_neg hlen] at h ⊢
      cases hread : devread (fileStart g.env.rest + sector) blkoffset (min (2 ^ 11 - blkoffset) len) buf g.diskReadHook g.env with
      | mk ok env =>
        simp only [hread] at h ⊢
        cases ok with
        | true =>
          simp only [Bool.not_true, Bool.false_eq_true, if_false, Bool.true_and] at h ⊢
          exact ih h rfl
        | false =>
          simp only [Bool.not_false, if_true, Bool.false_and, Bool.false_eq_true, or_false] at h ⊢
          obtain ⟨-, rfl⟩ := Prod.mk.inj (Option.some.inj h)
          exact Iff.rfl

theorem iso9660Read_silent_iff {devread : Devread η ω} {fileStart : ω → Int} (h : iso9660Read devread fileStart fuel len g = some (ret, g'))
    (hg : g.Silent) :
    g'.Silent ↔ g.diskReadHook = none ∨ fileStart g.env.rest = 0 ∨ IsoSucceeds devread fileStart fuel len g := by
  unfold iso9660Read at h
  split at h
  next hstart =>
    cases h
    exact ⟨fun _ => .inr (.inl hstart), fun _ => hg⟩
  next hstart =>
    rw [iso9660Loop_silent_iff h hg, IsoSucceeds]
    simp only [hstart, false_or]

/-- A call does not end in `iso9660_read` with a failed read, a hook being installed. -/
def Reader.Safe (fuel : Nat) (len : Int) (g : Globals η ω) : Reader η ω → Prop
  | iso9660 devread fileStart => g.diskReadHook = none ∨ fileStart g.env.rest = 0 ∨ IsoSucceeds devread fileStart fuel len g
  | _ => True

theorem Reader.read_silent_iff {reader : Reader η ω} (h : reader.read fuel len g = some (ret, g')) (hg : g.Silent) :
    g'.Silent ↔ reader.Safe fuel len g := by
  cases reader with
  | blockFile => exact iff_of_true (blockFileRead_silent h hg) trivial
  | fat => exact iff_of_true (fatRead_silent h hg) trivial
  | ntfs cmft readAttribute decompress =>
    obtain rfl := (Prod.mk.inj (Option.some.inj h)).2
    exact iff_of_true (ntfsRead_silent cmft readAttribute decompress len hg) trivial
  | ext2fs => exact iff_of_true (ext2fsRead_silent h hg) trivial
  | minix => exact iff_of_true (minixRead_silent h hg) trivial
  | reiserfs => exact iff_of_true (reiserfsRead_silent h hg) trivial
  | jfs => exact iff_of_true (jfsRead_silent h hg) trivial
  | xfs => exact iff_of_true (xfsRead_silent h hg) trivial
  | ufs2 => exact iff_of_true (ffsRead_silent h hg) trivial
  | iso9660 => exact iso9660Read_silent_iff h hg
  | ffs => exact iff_of_true (ffsRead_silent h hg) trivial
  | other read =>
    obtain rfl := (Prod.mk.inj (Option.some.inj h)).2
    exact iff_of_true hg trivial

/-! ## Runs -/

/-- The states that calls of `grub_read` lead to, for files of any file systems. -/
inductive Reached : Globals η ω → Prop where
  | start {g : Globals η ω} (func : g.diskReadFunc = none) : Reached g
  /-- Other code runs between the calls. It may install a hook, or take it away. -/
  | command {g : Globals η ω} (before : Reached g) (hook : Option η) (env : Env ω) :
    Reached { g with diskReadHook := hook, env := env }
  | read {g g' : Globals η ω} (before : Reached g) (reader : Reader η ω) (fuel : Nat) (len ret : Int)
    (returns : reader.read fuel len g = some (ret, g')) (safe : reader.Safe fuel len g) : Reached g'

theorem Reached.silent (h : Reached g) : g.Silent := by
  induction h with
  | start func => exact func
  | command _ hook env ih => exact ih
  | read _ reader fuel len ret returns safe ih => exact (Reader.read_silent_iff returns ih).2 safe

section Examples

end Examples

end TrustedGrub.Fsys
