import TrustedGrub.Ntfs.RunList
import TrustedGrub.Drive.Rawread

/-!
# The superblock of a FAT volume

`fat_mount` of `fsys_fat.c`: what it makes of the parameter block in the volume's first
sector and of the first entry of the FAT, once these are read and the partition's type has
been found to be one for FAT.
-/

namespace TrustedGrub.Fat
open Fips180 (Word)
open Ntfs (int32)
open Drive (log2)

/-- `struct fat_bpb`, with the fields that are used. -/
structure Bpb where
  bytesPerSect : BitVec 16
  sectsPerClust : BitVec 8
  reservedSects : BitVec 16
  numFats : BitVec 8
  dirEntries : BitVec 16
  shortSectors : BitVec 16
  media : BitVec 8
  fatLength : BitVec 16
  longSectors : Word
  fat32Length : Word
  flags : BitVec 16
  rootCluster : Word

/-- `struct fat_superblock`, with the fields that `fat_mount` sets for good. -/
structure Super where
  fatOffset : Int
  fatLength : Int
  fatSize : Nat
  rootOffset : Int
  rootMax : Int
  dataOffset : Int
  numSectors : Int
  numClust : Int
  clustEofMarker : Int
  sectsPerClust : Nat
  sectsizeBits : Nat
  clustsizeBits : Nat
  rootCluster : Int
  deriving DecidableEq

def fatDirentryLength : Nat := 32
def fatMax12bitClust : Int := 4087

/-- The fields that do not depend on the width of the FAT's entries. -/
def Bpb.layout (bpb : Bpb) : Super :=
  let sectsizeBits := log2 bpb.bytesPerSect.toNat
  let numSectors := int32 (if bpb.shortSectors ≠ 0 then bpb.shortSectors.toNat else bpb.longSectors.toNat)
  let fatOffset : Int := bpb.reservedSects.toNat
  let fatLength := int32 (if bpb.fatLength ≠ 0 then bpb.fatLength.toNat else bpb.fat32Length.toNat)
  let rootOffset := int32 (fatOffset + bpb.numFats.toNat * fatLength)
  let rootMax : Int := fatDirentryLength * bpb.dirEntries.toNat
  let dataOffset := int32 (rootOffset + ((rootMax - 1) >>> sectsizeBits) + 1)
  { fatOffset, fatLength, rootOffset, rootMax, dataOffset, numSectors, sectsizeBits
    fatSize := 0, clustEofMarker := 0, rootCluster := 0
    numClust := int32 (2 + (int32 (numSectors - dataOffset)).tdiv bpb.sectsPerClust.toNat)
    sectsPerClust := bpb.sectsPerClust.toNat
    clustsizeBits := sectsizeBits + log2 bpb.sectsPerClust.toNat }

/-- The fields for FAT32, with the FAT that is in use. -/
def Bpb.fat32 (bpb : Bpb) (sb : Super) : Option Super :=
  if bpb.dirEntries ≠ 0 then none
  else if bpb.flags &&& 0x0080 ≠ 0 then
    let activeFat := (bpb.flags &&& 0x000f).toNat
    if bpb.numFats.toNat ≤ activeFat then none
    else some { sb with
      fatOffset := int32 (sb.fatOffset + activeFat * sb.fatLength), fatSize := 8, rootCluster := int32 bpb.rootCluster.toNat
      clustEofMarker := 0xffffff8 }
  else some { sb with fatSize := 8, rootCluster := int32 bpb.rootCluster.toNat, clustEofMarker := 0xffffff8 }

/-- The fields for FAT12 and FAT16. -/
def Super.fat16 (sb : Super) : Option Super :=
  if sb.rootMax = 0 then none
  else if fatMax12bitClust < sb.numClust then some { sb with fatSize := 4, rootCluster := -1, clustEofMarker := 0xfff8 }
  else some { sb with fatSize := 3, rootCluster := -1, clustEofMarker := 0xff8 }

/-- The checks of `fat_mount`. -/
def Bpb.Sane (bpb : Bpb) (sb : Super) : Prop :=
  bpb.bytesPerSect.toNat = 1 <<< sb.sectsizeBits ∧ bpb.bytesPerSect.toNat = Disk.sectorSize ∧
    bpb.sectsPerClust.toNat = 1 <<< (sb.clustsizeBits - sb.sectsizeBits) ∧ 2 < sb.numClust ∧
    (int32 (sb.fatSize * sb.numClust)).tdiv (2 * Disk.sectorSize) ≤ sb.fatLength

instance (bpb : Bpb) (sb : Super) : Decidable (bpb.Sane sb) := by
  unfold Bpb.Sane
  infer_instance

/-- The media descriptor in the first entry of the FAT, up to its third bit. -/
def Bpb.mediaMatches (bpb : Bpb) (sb : Super) (firstFat : Word) : Bool :=
  let (mask, magic) : Word × Word :=
    if sb.fatSize = 8 then (0x0fffffff, 0x0fffff00) else if sb.fatSize = 4 then (0x0000ffff, 0xff00) else (0x00000fff, 0x0f00)
  (firstFat &&& mask) ||| 0x8 = magic ||| bpb.media.setWidth 32 ||| 0x8

/-- `fat_mount`. -/
def fatMount (bpb : Bpb) (firstFat : Word) : Option Super :=
  if bpb.sectsPerClust = 0 then none
  else do
    let sb ← if bpb.fatLength = 0 then bpb.fat32 bpb.layout else bpb.layout.fat16
    if ¬ bpb.Sane sb then none
    else if ¬ bpb.mediaMatches sb firstFat then none
    else some sb

variable {bpb : Bpb} {sb : Super} {firstFat : Word}

/-- The width of the FAT's entries, in units of four bits, and the mark of a file's end. -/
inductive Super.Width (sb : Super) : Prop where
  | fat12 (fatSize : sb.fatSize = 3) (marker : sb.clustEofMarker = 0xff8)
  | fat16 (fatSize : sb.fatSize = 4) (marker : sb.clustEofMarker = 0xfff8)
  | fat32 (fatSize : sb.fatSize = 8) (marker : sb.clustEofMarker = 0xffffff8)

/-- What the fields for a width add to the others. -/
structure Completes (sb sb' : Super) : Prop where
  width : sb'.Width
  sectsizeBits : sb'.sectsizeBits = sb.sectsizeBits
  clustsizeBits : sb'.clustsizeBits = sb.clustsizeBits

theorem fat32_completes {sb' : Super} (h : bpb.fat32 sb = some sb') : Completes sb sb' := by
  unfold Bpb.fat32 at h
  simp only at h
  split_ifs at h <;> cases h <;> exact ⟨.fat32 rfl rfl, rfl, rfl⟩

theorem fat16_completes {sb' : Super} (h : sb.fat16 = some sb') : Completes sb sb' := by
  unfold Super.fat16 at h
  split_ifs at h
  · cases h
    exact ⟨.fat16 rfl rfl, rfl, rfl⟩
  · cases h
    exact ⟨.fat12 rfl rfl, rfl, rfl⟩

theorem fatMount_spec (h : fatMount bpb firstFat = some sb) : Completes bpb.layout sb ∧ bpb.Sane sb := by
  unfold fatMount at h
  split_ifs at h with hclust hwidth
  · cases hsb : bpb.fat32 bpb.layout with
    | none => simp [hsb] at h
    | some sb' =>
      simp only [hsb, Option.bind_eq_bind, Option.bind_some] at h
      split_ifs at h with hsane hmedia
      cases h
      exact ⟨fat32_completes hsb, hsane⟩
  · cases hsb : bpb.layout.fat16 with
    | none => simp [hsb] at h
    | some sb' =>
      simp only [hsb, Option.bind_eq_bind, Option.bind_some] at h
      split_ifs at h with hsane hmedia
      cases h
      exact ⟨fat16_completes hsb, hsane⟩

theorem Bpb.Sane.sectsizeBits (h : bpb.Sane sb) : sb.sectsizeBits = 9 := by
  have hpow : 2 ^ sb.sectsizeBits = 2 ^ 9 := by
    rw [← Nat.one_shiftLeft, ← h.1, h.2.1]
    rfl
  exact Nat.pow_right_injective (Nat.le_refl 2) hpow

theorem clustsizeBits_ge (h : fatMount bpb firstFat = some sb) : 9 ≤ sb.clustsizeBits := by
  obtain ⟨hcompletes, hsane⟩ := fatMount_spec h
  have hsum : bpb.layout.clustsizeBits = bpb.layout.sectsizeBits + log2 bpb.sectsPerClust.toNat := rfl
  rw [← hcompletes.clustsizeBits, ← hcompletes.sectsizeBits, hsane.sectsizeBits] at hsum
  omega

end TrustedGrub.Fat
