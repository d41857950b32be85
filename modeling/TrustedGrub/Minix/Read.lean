import TrustedGrub.Fsys.Devread
import TrustedGrub.Lib.Loop

/-!
# Reading a file of a MINIX file system

`minix_block_map` and `minix_read` of `fsys_minix.c`. The zones of a file are named in its inode, those behind the first
seven in one block of zone numbers, or in blocks that are named in another one. Two such blocks are kept between requests.
-/

namespace TrustedGrub.Minix
open Disk (GrubError)
open Fsys (Byte Block Partition Io)
open Loop (Body Flow run)

/-- `__u16`, as zones are numbered. -/
abbrev Zone := BitVec 16

/-- The globals. `zone` is `INODE->i_zone`. -/
structure State (σ : Type) where
  zone : Nat → Zone
  mapblock1 : Int
  mapblock2 : Int
  datablock1 : Block
  datablock2 : Block
  filepos : Nat
  io : Io σ
  /-- The reads that have failed so far. No code reads this: it is the history. -/
  failures : Nat

variable {σ : Type}

/-- `((__u16 *) b)[i]` -/
def entry (b : Block) (i : Nat) : Zone := b (2 * i + 1) ++ b (2 * i)

/-- `devread`. While there is an error, nothing is read. -/
def devread (d : Partition σ) (sector byteOffset byteLen : Nat) (buf : Block) (s : State σ) : Bool × Block × State σ :=
  if s.io.errnum = .none then
    match Fsys.devread d (.ofNat 32 sector) (.ofNat 32 byteOffset) (.ofNat 32 byteLen) buf s.io with
    | (true, buf, io) => (true, buf, { s with io })
    | (false, buf, io) => (false, buf, { s with io, failures := s.failures + 1 })
  else if d.partLength ≤ .ofNat 32 sector + (BitVec.ofNat 32 byteOffset + .ofNat 32 byteLen - 1).sshiftRight 9 then
    (false, buf, { s with io := { s.io with errnum := .outsidePart } })
  else (false, buf, s)

/-- `minix_rdfsb` -/
def rdfsb (d : Partition σ) (fsblock : Nat) (buf : Block) (s : State σ) : Bool × Block × State σ := devread d (fsblock * 2) 0 1024 buf s

/-- `mapblock1 != key && !minix_rdfsb (i, DATABLOCK1)`, the other way round. -/
def load1 (d : Partition σ) (key : Int) (i : Zone) (s : State σ) : Bool × State σ :=
  if s.mapblock1 ≠ key then
    match rdfsb d i.toNat s.datablock1 s with
    | (ok, datablock1, s) => (ok, { s with datablock1 })
  else (true, s)

/-- `mapblock2 != i && !minix_rdfsb (i, DATABLOCK2)`, the other way round. -/
def load2 (d : Partition σ) (i : Zone) (s : State σ) : Bool × State σ :=
  if s.mapblock2 ≠ i.toNat then
    match rdfsb d i.toNat s.datablock2 s with
    | (ok, datablock2, s) => (ok, { s with datablock2 })
  else (true, s)

/-- `errnum = ERR_FSYS_CORRUPT; return -1;` -/
def State.corrupt (s : State σ) : Int × State σ := (-1, { s with io := { s.io with errnum := .fsysCorrupt } })

/-- `minix_block_map` -/
def blockMap (d : Partition σ) (logicalBlock : Nat) (s : State σ) : Int × State σ :=
  if logicalBlock < 7 then ((s.zone logicalBlock).toNat, s)
  else
    let logicalBlock := logicalBlock - 7
    if logicalBlock < 512 then
      if s.zone 7 = 0 then s.corrupt
      else
        match load1 d 1 (s.zone 7) s with
        | (false, s) => s.corrupt
        | (true, s) => ((entry s.datablock1 logicalBlock).toNat, { s with mapblock1 := 1 })
    else
      let logicalBlock := logicalBlock - 512
      if s.zone 8 = 0 then s.corrupt
      else
        match load1 d 2 (s.zone 8) s with
        | (false, s) => s.corrupt
        | (true, s) =>
          let s := { s with mapblock1 := 2 }
          let i := entry s.datablock1 (logicalBlock >>> 9)
          if i = 0 then s.corrupt
          else
            match load2 d i s with
            | (false, s) => s.corrupt
            | (true, s) => ((entry s.datablock2 (logicalBlock &&& 511)).toNat, { s with mapblock2 := i.toNat })

/-- The locals of `minix_read`, with the memory that `buf` pointed to at first. -/
structure Locals where
  len : Nat
  ret : Nat
  mem : Block

/-- A pass of the loop of `minix_read`. -/
def readPass (d : Partition σ) : Body Locals (State σ) Locals := fun _ t s =>
  some <|
    if t.len = 0 then .done t s
    else
      match blockMap d (s.filepos >>> 10) s with
      | (map, s) =>
        if map < 0 then .done t s
        else
          let offset := s.filepos &&& 1023
          let size := min (1024 - offset) t.len
          match devread d (map.toNat * 2) offset size (fun i => t.mem (t.ret + i)) s with
          | (_, buf, s) =>
            .next ⟨t.len - size, t.ret + size, fun i => if i < t.ret then t.mem i else buf (i - t.ret)⟩
              { s with filepos := s.filepos + size }

/-- `minix_read`, of `len` bytes into the memory `mem`. -/
def minixRead (d : Partition σ) (fuel len : Nat) (mem : Block) (s : State σ) : Option (Nat × Block × State σ) :=
  (run (readPass d) fuel ⟨len, 0, mem⟩ s).map fun (t, s) => (if s.io.errnum ≠ .none then 0 else t.ret, t.mem, s)

/-- What `minix_dir` leaves behind that has found a file: its inode, and whatever there was in the blocks of the directories,
under no key. -/
def State.opened (s : State σ) (zone : Nat → Zone) (datablock1 datablock2 : Block) : State σ :=
  { s with zone, mapblock1 := -1, mapblock2 := -1, datablock1, datablock2, filepos := 0 }

/-- The error of an earlier request has been reported, and the next one goes to `filepos`. -/
def State.seek (s : State σ) (filepos : Nat) : State σ := { s with filepos, io := { s.io with errnum := .none } }

end TrustedGrub.Minix
