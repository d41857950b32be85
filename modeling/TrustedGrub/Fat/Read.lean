import TrustedGrub.Fat.Mount
import TrustedGrub.Lib.Memory

/-!
# Reading a file of a FAT volume

`fat_read` of `fsys_fat.c`. It keeps two things between calls: where in the file's chain of
clusters the last read ended, and a window of the FAT, whose key is `cached_fat`, counted in
units of four bits. The numbers of a volume that can be mounted stay below `2^31`, so they
are plain ones here.
-/

namespace TrustedGrub.Fat
open Fips180 (Byte Word)
open Disk (GrubError)
open Ntfs (int32)
open Memory (slice store)

def fatCacheSize : Nat := 2048
def maxint : Nat := 0x7fffffff

/-- What a read that fails leaves. -/
structure Failure where
  errnum : GrubError
  errnum_ne : errnum ≠ .none
  written : List Byte

/-- A mounted volume. -/
structure Volume (σ : Type) where
  bpb : Bpb
  firstFat : Word
  super : Super
  mounted : fatMount bpb firstFat = some super
  /-- The bytes of the partition. -/
  disk : Nat → Byte
  /-- The device, asked for a range of the partition. -/
  devread : σ → Int → Int → Int → Option Failure × σ

structure State (σ : Type) where
  errnum : GrubError
  filepos : Nat
  cachedFat : Int
  fatBuf : Nat → Byte
  fileCluster : Int
  currentClusterNum : Nat
  currentCluster : Int
  dev : σ
  /-- The reads that have failed so far. No code reads this: it is the history. -/
  failures : Nat
  /-- The loads of the window that have come to nothing. -/
  lost : Nat

variable {σ : Type}

/-- `devread`: whether it succeeds, and the bytes that it has written. It does nothing after
an error. -/
def State.devread (vol : Volume σ) (s : State σ) (sector byteOffset byteLen : Int) : Bool × List Byte × State σ :=
  if s.errnum ≠ .none then (false, [], s)
  else
    match vol.devread s.dev sector byteOffset byteLen with
    | (none, dev) =>
      (true, slice vol.disk (sector * Disk.sectorSize + byteOffset).toNat byteLen.toNat, { s with dev := dev })
    | (some failure, dev) =>
      (false, failure.written.take byteLen.toNat, { s with errnum := failure.errnum, dev := dev, failures := s.failures + 1 })

/-- `*(unsigned long *)` -/
def le32 (m : Nat → Byte) (p : Nat) : Nat :=
  (m p).toNat + 0x100 * (m (p + 1)).toNat + 0x10000 * (m (p + 2)).toNat + 0x1000000 * (m (p + 3)).toNat

/-- The part of `fat_read` that has an entry of the FAT in the window. The result is its
position there. -/
def State.window (vol : Volume σ) (s : State σ) (fatEntry : Int) : Option Int × State σ :=
  let cachedPos := fatEntry - s.cachedFat
  if cachedPos < 0 ∨ 2 * fatCacheSize < cachedPos + vol.super.fatSize then
    let cachedFat := fatEntry - fatEntry % (2 * Disk.sectorSize)
    let sector := vol.super.fatOffset + cachedFat.tdiv (2 * Disk.sectorSize)
    let (ok, bytes, s) := { s with cachedFat := cachedFat }.devread vol sector 0 fatCacheSize
    let s := { s with fatBuf := store s.fatBuf 0 bytes }
    if !ok then (none, { s with lost := s.lost + 1 }) else (some (fatEntry - cachedFat), s)
  else (some cachedPos, s)

/-- The entry of the FAT at a position in the window. -/
def Super.entryAt (sb : Super) (fatBuf : Nat → Byte) (cachedPos : Int) : Int :=
  let nextCluster := int32 (le32 fatBuf (cachedPos / 2).toNat)
  if sb.fatSize = 3 then (if cachedPos % 2 = 1 then nextCluster / 2 ^ 4 else nextCluster) % 0x1000
  else if sb.fatSize = 4 then nextCluster % 0x10000
  else nextCluster

/-- How a step along the chain ends. -/
inductive Step where
  | advanced
  | eof
  | corrupt
  | failed
  deriving DecidableEq

/-- The body of the inner loop of `fat_read`. -/
def State.next (vol : Volume σ) (s : State σ) : Step × State σ :=
  match s.window vol (s.currentCluster * vol.super.fatSize) with
  | (none, s) => (.failed, s)
  | (some cachedPos, s) =>
    let nextCluster := vol.super.entryAt s.fatBuf cachedPos
    if vol.super.clustEofMarker ≤ nextCluster then (.eof, s)
    else if nextCluster < 2 ∨ vol.super.numClust ≤ nextCluster then (.corrupt, { s with errnum := .fsysCorrupt })
    else (.advanced, { s with currentCluster := nextCluster, currentClusterNum := s.currentClusterNum + 1 })

/-- The inner loop, that many times. -/
def State.advance (vol : Volume σ) : Nat → State σ → Step × State σ
  | 0, s => (.advanced, s)
  | n + 1, s =>
    match s.next vol with
    | (.advanced, s) => s.advance vol n
    | result => result

/-- The sector in which a cluster begins. -/
def Super.clusterSector (sb : Super) (cluster : Int) : Int :=
  sb.dataOffset + (cluster - 2) * 2 ^ (sb.clustsizeBits - sb.sectsizeBits)

/-- The outer loop of `fat_read`, and its end. The result is what is returned, and the
caller's buffer. -/
def readClusters (vol : Volume σ) : Nat → (logicalClust offset len ret : Nat) → (Nat → Byte) → State σ → Nat × (Nat → Byte) × State σ
  | 0, _, _, _, ret, buf, s => (if s.errnum ≠ .none then 0 else ret, buf, s)
  | fuel + 1, logicalClust, offset, len, ret, buf, s =>
    if len = 0 then (if s.errnum ≠ .none then 0 else ret, buf, s)
    else
      match s.advance vol (logicalClust - s.currentClusterNum) with
      | (.eof, s) => (ret, buf, s)
      | (.corrupt, s) => (0, buf, s)
      | (.failed, s) => (0, buf, s)
      | (.advanced, s) =>
        let size := min (2 ^ vol.super.clustsizeBits - offset) len
        let (_, bytes, s) := s.devread vol (vol.super.clusterSector s.currentCluster) offset size
        readClusters vol fuel (logicalClust + 1) 0 (len - size) (ret + size) (store buf ret bytes)
          { s with filepos := s.filepos + size }

/-- The root directory of FAT12 and FAT16. -/
def readRoot (vol : Volume σ) (s : State σ) (len : Nat) (buf : Nat → Byte) : Int × (Nat → Byte) × State σ :=
  let size := min (vol.super.rootMax - s.filepos) len
  let (ok, bytes, s) := s.devread vol vol.super.rootOffset s.filepos size
  if !ok then (0, store buf 0 bytes, s) else (size, store buf 0 bytes, { s with filepos := (s.filepos + size).toNat })

/-- `fat_read`. -/
def fatRead (vol : Volume σ) (s : State σ) (len : Nat) (buf : Nat → Byte) : Int × (Nat → Byte) × State σ :=
  if s.fileCluster < 0 then readRoot vol s len buf
  else
    let logicalClust := s.filepos >>> vol.super.clustsizeBits
    let offset := s.filepos &&& (1 <<< vol.super.clustsizeBits - 1)
    let s := if logicalClust < s.currentClusterNum then { s with currentClusterNum := 0, currentCluster := s.fileCluster } else s
    let (ret, buf, s) := readClusters vol len logicalClust offset len 0 buf s
    (ret, buf, s)

end TrustedGrub.Fat
