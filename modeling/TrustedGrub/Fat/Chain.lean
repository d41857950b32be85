import TrustedGrub.Fat.Read
import Mathlib.Data.List.Induction

/-!
# Files of a FAT volume, and what is read of them

`File` is a chain of clusters walked without the window and the position that `fat_read`
keeps. `fatRead_exact` says that these do no harm as long as no load of the window has
failed.
-/

namespace TrustedGrub.Fat
open Fips180 (Byte Word)
open Disk (GrubError)
open Ntfs (int32)
open Memory (slice store)

variable {σ : Type} {vol : Volume σ} {s s' : State σ}

/-! ## The chain -/

/-- The address of the FAT in the partition. -/
def Volume.fatAddr (vol : Volume σ) : Nat := (vol.super.fatOffset * Disk.sectorSize).toNat

/-- The entry of a cluster as it is stored. -/
def Volume.rawEntry (vol : Volume σ) (c : Nat) : Nat :=
  let byte (i : Nat) : Nat := (vol.disk (vol.fatAddr + i)).toNat
  if vol.super.fatSize = 3 then
    if c % 2 = 1 then byte (3 * c / 2) / 0x10 + 0x10 * byte (3 * c / 2 + 1)
    else byte (3 * c / 2) + 0x100 * (byte (3 * c / 2 + 1) % 0x10)
  else if vol.super.fatSize = 4 then byte (2 * c) + 0x100 * byte (2 * c + 1)
  else byte (4 * c) + 0x100 * byte (4 * c + 1) + 0x10000 * byte (4 * c + 2) + 0x1000000 * byte (4 * c + 3)

/-- The number that the entry of a cluster stands for: the upper four bits of an entry of
FAT32 are reserved. -/
def Volume.entry (vol : Volume σ) (c : Nat) : Nat := vol.rawEntry c % 2 ^ 28

/-- Where the data of a cluster begin. -/
def Volume.clusterAddr (vol : Volume σ) (c : Nat) : Nat := (vol.super.clusterSector c * Disk.sectorSize).toNat

def Volume.clusterSize (vol : Volume σ) : Nat := 2 ^ vol.super.clustsizeBits

/-- A well-formed chain of clusters. -/
structure File (vol : Volume σ) where
  clusters : List Nat
  nonempty : clusters ≠ []
  inside : ∀ c ∈ clusters, 2 ≤ c ∧ (c : Int) < vol.super.numClust ∧ (c : Int) < vol.super.clustEofMarker
  chained : ∀ i (h : i + 1 < clusters.length), vol.entry clusters[i] = clusters[i + 1]
  ends : vol.super.clustEofMarker ≤ vol.entry (clusters.getLast nonempty)
  fatOffset_nonneg : 0 ≤ vol.super.fatOffset
  dataOffset_nonneg : 0 ≤ vol.super.dataOffset

/-- The bytes that the clusters of a file hold. -/
def File.size (file : File vol) : Nat := file.clusters.length * vol.clusterSize

def File.byteAt (file : File vol) (p : Nat) : Byte :=
  vol.disk (vol.clusterAddr (file.clusters.getD (p / vol.clusterSize) 0) + p % vol.clusterSize)

/-- A read meets no entry whose reserved bits are set. -/
def File.Clear (file : File vol) (filepos len : Nat) : Prop :=
  ∀ i (h : i < file.clusters.length), 0 < len → (i + 1) * vol.clusterSize < filepos + len → vol.rawEntry file.clusters[i] < 2 ^ 28

/-! ## The device -/

/-- An error has been there, or a read has failed. -/
structure Broken (s s' : State σ) : Prop where
  errnum : s'.errnum ≠ .none
  cause : s.errnum ≠ .none ∨ s.failures < s'.failures

/-- The chain, the position in it and the window are as before. -/
structure SameCache (s s' : State σ) : Prop where
  filepos : s'.filepos = s.filepos
  cachedFat : s'.cachedFat = s.cachedFat
  fatBuf : s'.fatBuf = s.fatBuf
  fileCluster : s'.fileCluster = s.fileCluster
  currentClusterNum : s'.currentClusterNum = s.currentClusterNum
  currentCluster : s'.currentCluster = s.currentCluster
  lost : s'.lost = s.lost

/-- What `devread` comes to. -/
inductive Answered (vol : Volume σ) (s : State σ) (sector byteOffset byteLen : Int) : Bool × List Byte × State σ → Prop where
  | read {s' : State σ} (same : SameCache s s') (errnum : s.errnum = .none) (errnum' : s'.errnum = .none)
    (failures : s'.failures = s.failures) :
    Answered vol s sector byteOffset byteLen
      (true, slice vol.disk (sector * Disk.sectorSize + byteOffset).toNat byteLen.toNat, s')
  | failed {s' : State σ} {bytes : List Byte} (same : SameCache s s') (broken : Broken s s') (failures : s.failures ≤ s'.failures)
    (length : bytes.length ≤ byteLen.toNat) : Answered vol s sector byteOffset byteLen (false, bytes, s')

theorem devread_answered (vol : Volume σ) (s : State σ) (sector byteOffset byteLen : Int) :
    Answered vol s sector byteOffset byteLen (s.devread vol sector byteOffset byteLen) := by
  unfold State.devread
  split_ifs with herr
  · apply Answered.failed
    · exact ⟨rfl, rfl, rfl, rfl, rfl, rfl, rfl⟩
    · exact ⟨herr, .inl herr⟩
    · exact Nat.le_refl _
    · exact Nat.zero_le _
  · rw [not_not] at herr
    cases vol.devread s.dev sector byteOffset byteLen with
    | mk outcome dev =>
      cases outcome with
      | none =>
        apply Answered.read
        · exact ⟨rfl, rfl, rfl, rfl, rfl, rfl, rfl⟩
        · exact herr
        · exact herr
        · rfl
      | some failure =>
        apply Answered.failed
        · exact ⟨rfl, rfl, rfl, rfl, rfl, rfl, rfl⟩
        · exact ⟨failure.errnum_ne, .inr (Nat.lt_succ_self _)⟩
        · exact Nat.le_succ _
        · exact List.length_take_le ..

/-! ## The window -/

/-- The window has no key, or holds the part of the FAT the key says. -/
def Keyed (vol : Volume σ) (s : State σ) : Prop :=
  s.cachedFat = -2 * fatCacheSize ∨
    0 ≤ s.cachedFat ∧ s.cachedFat % 1024 = 0 ∧ ∀ i < fatCacheSize, s.fatBuf i = vol.disk (vol.fatAddr + s.cachedFat.toNat / 2 + i)

/-- The chain and the position in it are as before, and so are the errors. -/
structure SamePlace (s s' : State σ) : Prop where
  filepos : s'.filepos = s.filepos
  fileCluster : s'.fileCluster = s.fileCluster
  currentClusterNum : s'.currentClusterNum = s.currentClusterNum
  currentCluster : s'.currentCluster = s.currentCluster

/-- What having an entry in the window comes to. -/
inductive Windowed (vol : Volume σ) (s : State σ) (fatEntry : Int) : Option Int × State σ → Prop where
  | held {s' : State σ} {cachedPos : Int} (same : SamePlace s s') (keyed : Keyed vol s') (place : cachedPos = fatEntry - s'.cachedFat)
    (low : 0 ≤ cachedPos) (high : cachedPos + vol.super.fatSize ≤ 2 * fatCacheSize) (nonneg : 0 ≤ s'.cachedFat)
    (errnum : s'.errnum = s.errnum) (failures : s'.failures = s.failures) (lost : s'.lost = s.lost) :
    Windowed vol s fatEntry (some cachedPos, s')
  | failed {s' : State σ} (same : SamePlace s s') (broken : Broken s s') (failures : s.failures ≤ s'.failures)
    (lost : s.lost < s'.lost) : Windowed vol s fatEntry (none, s')

theorem loaded_window {fatBuf : Nat → Byte} {cachedFat : Int} (hfat : 0 ≤ vol.super.fatOffset) (hstart : 0 ≤ cachedFat)
    (halign : cachedFat % 1024 = 0) : ∀ i < fatCacheSize,
      store fatBuf 0 (slice vol.disk ((vol.super.fatOffset + cachedFat.tdiv 1024) * Disk.sectorSize + 0).toNat
        (fatCacheSize : Int).toNat) i = vol.disk (vol.fatAddr + cachedFat.toNat / 2 + i) := by
  intro i hi
  have haddr : ((vol.super.fatOffset + cachedFat.tdiv 1024) * Disk.sectorSize + 0).toNat = vol.fatAddr + cachedFat.toNat / 2 := by
    have hsector : (Disk.sectorSize : Int) = 512 := by rfl
    rw [Volume.fatAddr, Int.tdiv_eq_ediv_of_nonneg hstart, hsector]
    omega
  rw [haddr, Int.toNat_natCast]
  generalize vol.fatAddr + cachedFat.toNat / 2 = a
  have hlen : i < (slice vol.disk a fatCacheSize).length := by simpa using hi
  have hstore := Memory.store_at (m := fatBuf) (a := 0) hlen
  rw [Nat.zero_add] at hstore
  rw [hstore]
  simp [slice]

theorem window_windowed (hk : Keyed vol s) {fatEntry : Int} (hpos : 0 ≤ fatEntry) (hfat : 0 ≤ vol.super.fatOffset)
    (hsize : 0 < vol.super.fatSize ∧ vol.super.fatSize ≤ 8) : Windowed vol s fatEntry (s.window vol fatEntry) := by
  have hcache : (fatCacheSize : Int) = 2048 := by rfl
  have hunits : 2 * (Disk.sectorSize : Int) = 1024 := by rfl
  unfold State.window
  simp only [hunits]
  by_cases hout : fatEntry - s.cachedFat < 0 ∨ 2 * (fatCacheSize : Int) < fatEntry - s.cachedFat + vol.super.fatSize
  · rw [if_pos hout]
    have hstart : 0 ≤ fatEntry - fatEntry % 1024 := by omega
    have halign : (fatEntry - fatEntry % 1024) % 1024 = 0 := by omega
    have hlow : 0 ≤ fatEntry - (fatEntry - fatEntry % 1024) := by omega
    have hhigh : fatEntry - (fatEntry - fatEntry % 1024) + vol.super.fatSize ≤ 2 * fatCacheSize := by omega
    generalize fatEntry - fatEntry % 1024 = cachedFat at *
    have hanswer := devread_answered vol { s with cachedFat := cachedFat } (vol.super.fatOffset + cachedFat.tdiv 1024) 0 fatCacheSize
    generalize State.devread vol { s with cachedFat := cachedFat } _ _ _ = answer at hanswer
    cases hanswer with
    | @read s' same errnum errnum' failures =>
      have hkey : s'.cachedFat = cachedFat := same.cachedFat
      simp only [Bool.not_true, Bool.false_eq_true, if_false]
      rw [← hkey] at hlow hhigh hstart halign ⊢
      apply Windowed.held
      case place => rfl
      case same => exact ⟨same.filepos, same.fileCluster, same.currentClusterNum, same.currentCluster⟩
      case keyed =>
        refine .inr ⟨hstart, halign, ?_⟩
        dsimp only
        exact loaded_window hfat hstart halign
      case low => exact hlow
      case high => exact hhigh
      case nonneg => exact hstart
      case errnum => exact errnum'.trans errnum.symm
      case failures => exact failures
      case lost => exact same.lost
    | @failed s' bytes same broken failures length =>
      simp only [Bool.not_false, if_true]
      apply Windowed.failed
      · exact ⟨same.filepos, same.fileCluster, same.currentClusterNum, same.currentCluster⟩
      · exact ⟨broken.errnum, broken.cause⟩
      · exact failures
      · exact Nat.lt_succ_of_le (Nat.le_of_eq same.lost.symm)
  · rw [if_neg hout]
    rw [not_or, Int.not_lt, Int.not_lt] at hout
    refine .held ⟨rfl, rfl, rfl, rfl⟩ hk rfl hout.1 hout.2 ?_ rfl rfl rfl
    obtain hnone | ⟨hnonneg, -⟩ := hk
    · omega
    · exact hnonneg

theorem int32_eq_add (x : Int) : ∃ k : Int, int32 x = x + 0x100000000 * k := by
  obtain ⟨k, hk⟩ := Int.dvd_self_sub_bmod (x := x) (m := 2 ^ 32)
  refine ⟨-k, ?_⟩
  unfold int32
  omega

section
variable {b₀ b₁ : Nat} (b₂ b₃ : Nat)

/-- The lower bits of four bytes taken as an `int`. -/
theorem int32_bytes (h₀ : b₀ < 256) (h₁ : b₁ < 256) :
    int32 (b₀ + 0x100 * b₁ + 0x10000 * b₂ + 0x1000000 * b₃ : Nat) % 0x10000 = (b₀ + 0x100 * b₁ : Nat) := by
  obtain ⟨k, hk⟩ := int32_eq_add (b₀ + 0x100 * b₁ + 0x10000 * b₂ + 0x1000000 * b₃ : Nat)
  omega

theorem int32_low (h₀ : b₀ < 256) (h₁ : b₁ < 256) :
    int32 (b₀ + 0x100 * b₁ + 0x10000 * b₂ + 0x1000000 * b₃ : Nat) % 0x1000 = (b₀ + 0x100 * (b₁ % 0x10) : Nat) := by
  have := int32_bytes b₂ b₃ h₀ h₁
  omega

theorem int32_high (h₀ : b₀ < 256) (h₁ : b₁ < 256) :
    int32 (b₀ + 0x100 * b₁ + 0x10000 * b₂ + 0x1000000 * b₃ : Nat) / 2 ^ 4 % 0x1000 = (b₀ / 0x10 + 0x10 * b₁ : Nat) := by
  have := int32_bytes b₂ b₃ h₀ h₁
  omega

end

/-- The window and the FAT agree on the entry of a cluster. -/
theorem entryAt_eq (hw : vol.super.Width) {fatBuf : Nat → Byte} {cachedFat cachedPos : Int} {c : Nat}
    (nonneg : 0 ≤ cachedFat) (aligned : cachedFat % 1024 = 0)
    (held : ∀ i < fatCacheSize, fatBuf i = vol.disk (vol.fatAddr + cachedFat.toNat / 2 + i))
    (place : cachedPos = c * vol.super.fatSize - cachedFat) (low : 0 ≤ cachedPos)
    (high : cachedPos + vol.super.fatSize ≤ 2 * fatCacheSize) :
    vol.super.entryAt fatBuf cachedPos = if vol.super.fatSize = 8 then int32 (vol.rawEntry c) else (vol.rawEntry c : Int) := by
  have hcache : fatCacheSize = 2048 := by rfl
  rw [hcache] at high
  have hbyte {i : Nat} (j : Nat) (hj : j < fatCacheSize) (hi : cachedFat.toNat / 2 + j = i) :
      fatBuf j = vol.disk (vol.fatAddr + i) := by
    rw [held j hj, Nat.add_assoc, hi]
  have hlt (b : Byte) : b.toNat < 256 := b.isLt
  generalize hq : (cachedPos / 2).toNat = q
  cases hw with
  | fat12 hsize =>
    rw [hsize] at place high
    have h₀ : fatBuf q = vol.disk (vol.fatAddr + 3 * c / 2) := hbyte q (by omega) (by omega)
    have h₁ : fatBuf (q + 1) = vol.disk (vol.fatAddr + (3 * c / 2 + 1)) := hbyte (q + 1) (by omega) (by omega)
    have hodd : cachedPos % 2 = 1 ↔ c % 2 = 1 := by omega
    simp only [Super.entryAt, Volume.rawEntry, hsize, hq, le32, hodd, h₀, h₁, Nat.reduceEqDiff, if_true, if_false]
    split_ifs with hc
    · exact int32_high _ _ (hlt _) (hlt _)
    · exact int32_low _ _ (hlt _) (hlt _)
  | fat16 hsize =>
    rw [hsize] at place high
    have h₀ : fatBuf q = vol.disk (vol.fatAddr + 2 * c) := hbyte q (by omega) (by omega)
    have h₁ : fatBuf (q + 1) = vol.disk (vol.fatAddr + (2 * c + 1)) := hbyte (q + 1) (by omega) (by omega)
    simp only [Super.entryAt, Volume.rawEntry, hsize, hq, le32, h₀, h₁, Nat.reduceEqDiff, if_true, if_false]
    exact int32_bytes _ _ (hlt _) (hlt _)
  | fat32 hsize =>
    rw [hsize] at place high
    have h₀ : fatBuf q = vol.disk (vol.fatAddr + 4 * c) := hbyte q (by omega) (by omega)
    have h₁ : fatBuf (q + 1) = vol.disk (vol.fatAddr + (4 * c + 1)) := hbyte (q + 1) (by omega) (by omega)
    have h₂ : fatBuf (q + 2) = vol.disk (vol.fatAddr + (4 * c + 2)) := hbyte (q + 2) (by omega) (by omega)
    have h₃ : fatBuf (q + 3) = vol.disk (vol.fatAddr + (4 * c + 3)) := hbyte (q + 3) (by omega) (by omega)
    simp [Super.entryAt, Volume.rawEntry, hsize, hq, le32, h₀, h₁, h₂, h₃]

/-! ## A step along the chain -/

/-- The number that `fat_read` takes an entry for. -/
def Volume.taken (vol : Volume σ) (c : Nat) : Int := if vol.super.fatSize = 8 then int32 (vol.rawEntry c) else vol.rawEntry c

theorem rawEntry_lt (vol : Volume σ) (c : Nat) :
    vol.rawEntry c < 2 ^ 32 ∧ (vol.super.fatSize ≠ 8 → vol.super.Width → vol.rawEntry c < 2 ^ 16) := by
  have hlt (i : Nat) : (vol.disk (vol.fatAddr + i)).toNat < 256 := BitVec.isLt _
  have h₀ := hlt (3 * c / 2)
  have h₁ := hlt (3 * c / 2 + 1)
  have h₂ := hlt (2 * c)
  have h₃ := hlt (2 * c + 1)
  have h₄ := hlt (4 * c)
  have h₅ := hlt (4 * c + 1)
  have h₆ := hlt (4 * c + 2)
  have h₇ := hlt (4 * c + 3)
  simp only [Volume.rawEntry]
  constructor
  · split_ifs <;> omega
  · intro hsize hw
    cases hw with
    | fat12 h =>
      rw [if_pos h]
      split_ifs <;> omega
    | fat16 h =>
      rw [if_neg (by omega), if_pos h]
      omega
    | fat32 h => exact absurd h hsize

variable {file : File vol} {k : Nat}

/-- An entry that is taken for the number of a cluster, or has its reserved bits clear, is
taken for what it stands for. -/
theorem taken_eq_entry (hw : vol.super.Width) (c : Nat)
    (h : vol.rawEntry c < 2 ^ 28 ∨ 0 ≤ vol.taken c ∧ vol.taken c < vol.super.clustEofMarker) : vol.taken c = vol.entry c := by
  obtain ⟨h32, h16⟩ := rawEntry_lt vol c
  unfold Volume.taken Volume.entry at *
  split_ifs at * with hsize
  · cases hw with
    | fat12 h => omega
    | fat16 h => omega
    | fat32 _ hmarker =>
      obtain hclear | ⟨hlow, hhigh⟩ := h
      · rw [Ntfs.int32_of_lt (by omega) (by omega)]
        omega
      · obtain ⟨wraps, hwraps⟩ := int32_eq_add (vol.rawEntry c)
        omega
  · have := h16 hsize hw
    omega

theorem taken_marker (hw : vol.super.Width) (h : k < file.clusters.length)
    (hmarker : vol.super.clustEofMarker ≤ vol.taken file.clusters[k]) (hclear : vol.rawEntry file.clusters[k] < 2 ^ 28) :
    file.clusters.length = k + 1 := by
  by_contra hne
  have hnext : k + 1 < file.clusters.length := by omega
  have hinside := (file.inside _ (List.getElem_mem hnext)).2.2
  rw [taken_eq_entry hw _ (.inl hclear), file.chained k hnext] at hmarker
  omega

theorem taken_inside (hw : vol.super.Width) (h : k < file.clusters.length)
    (hmarker : vol.taken file.clusters[k] < vol.super.clustEofMarker)
    (hdomain : vol.rawEntry file.clusters[k] < 2 ^ 28 ∨ 0 ≤ vol.taken file.clusters[k]) :
    ∃ hnext : k + 1 < file.clusters.length, vol.taken file.clusters[k] = file.clusters[k + 1] := by
  have hentry := taken_eq_entry hw file.clusters[k] (hdomain.imp_right (⟨·, hmarker⟩))
  obtain hlast | hnext : file.clusters.length = k + 1 ∨ k + 1 < file.clusters.length := by omega
  · have hends := file.ends
    have hk : file.clusters.getLast file.nonempty = file.clusters[k] := by
      rw [List.getLast_eq_getElem]
      congr 1
      omega
    rw [hk] at hends
    omega
  · exact ⟨hnext, hentry.trans (by rw [file.chained k hnext])⟩

/-- The position is cluster `k` of the file. -/
structure On (file : File vol) (k : Nat) (s : State σ) : Prop where
  inside : k < file.clusters.length
  currentClusterNum : s.currentClusterNum = k
  currentCluster : s.currentCluster = file.clusters[k]

/-- The file and the history are as before. -/
structure SameFile (s s' : State σ) : Prop where
  filepos : s'.filepos = s.filepos
  fileCluster : s'.fileCluster = s.fileCluster
  failures : s'.failures = s.failures
  lost : s'.lost = s.lost

theorem SameFile.refl (s : State σ) : SameFile s s := ⟨rfl, rfl, rfl, rfl⟩

theorem SameFile.trans {s₁ : State σ} (h : SameFile s s₁) (h' : SameFile s₁ s') : SameFile s s' :=
  ⟨h'.filepos.trans h.filepos, h'.fileCluster.trans h.fileCluster, h'.failures.trans h.failures, h'.lost.trans h.lost⟩

/-- What `n` steps along the chain from cluster `k` on come to. -/
inductive Moved (file : File vol) (k n : Nat) (s : State σ) : Step × State σ → Prop where
  | advanced {s' : State σ} (on : On file (k + n) s') (keyed : Keyed vol s') (same : SameFile s s') (errnum : s'.errnum = s.errnum) :
    Moved file k n s (.advanced, s')
  | eof {s' : State σ} {j : Nat} (short : j < n) (inside : k + j < file.clusters.length) (on : On file (k + j) s')
    (keyed : Keyed vol s') (same : SameFile s s') (errnum : s'.errnum = s.errnum)
    (last : vol.rawEntry file.clusters[k + j] < 2 ^ 28 → file.clusters.length = k + j + 1) : Moved file k n s (.eof, s')
  | corrupt {s' : State σ} {j : Nat} (short : j < n) (inside : k + j < file.clusters.length) (on : On file (k + j) s')
    (keyed : Keyed vol s') (same : SameFile s s') (reserved : 2 ^ 28 ≤ vol.rawEntry file.clusters[k + j]) :
    Moved file k n s (.corrupt, { s' with errnum := .fsysCorrupt })
  | failed {s' : State σ} (filepos : s'.filepos = s.filepos) (broken : Broken s s') (failures : s.failures ≤ s'.failures)
    (lost : s.lost < s'.lost) : Moved file k n s (.failed, s')

theorem next_moved (hk : Keyed vol s) (hon : On file k s) : Moved file k 1 s (s.next vol) := by
  have hw := (fatMount_spec vol.mounted).1.width
  have hsize : 0 < vol.super.fatSize ∧ vol.super.fatSize ≤ 8 := by
    cases hw <;> omega
  have hin := hon.inside
  have hpos : 0 ≤ s.currentCluster * vol.super.fatSize := by
    rw [hon.currentCluster]
    exact Int.mul_nonneg (Int.natCast_nonneg _) (Int.natCast_nonneg _)
  have hwin := window_windowed hk hpos file.fatOffset_nonneg hsize
  unfold State.next
  generalize s.window vol (s.currentCluster * vol.super.fatSize) = result at hwin
  cases hwin with
  | @held s' cachedPos same keyed place low high nonneg errnum failures lost =>
    have hon' : On file k s' :=
      ⟨hon.inside, same.currentClusterNum.trans hon.currentClusterNum, same.currentCluster.trans hon.currentCluster⟩
    have hsame : SameFile s s' := ⟨same.filepos, same.fileCluster, failures, lost⟩
    have hentry : vol.super.entryAt s'.fatBuf cachedPos = vol.taken file.clusters[k] := by
      obtain hnone | ⟨-, aligned, held⟩ := keyed
      · simp only [fatCacheSize] at hnone
        omega
      · rw [hon.currentCluster] at place
        exact entryAt_eq hw nonneg aligned held place low high
    simp only [hentry]
    split_ifs with hmarker hdomain
    · exact .eof Nat.one_pos hin hon' keyed hsame errnum (taken_marker hw hon.inside hmarker)
    · apply Moved.corrupt Nat.one_pos hin hon' keyed hsame
      by_contra hclear
      obtain ⟨hnext, htaken⟩ := taken_inside hw hon.inside (Int.not_le.1 hmarker) (.inl (Nat.not_le.1 hclear))
      have hinside := file.inside _ (List.getElem_mem hnext)
      omega
    · obtain ⟨hnext, htaken⟩ := taken_inside hw hon.inside (Int.not_le.1 hmarker) (.inr (by omega))
      refine .advanced ⟨hnext, ?_, htaken⟩ keyed ⟨hsame.filepos, hsame.fileCluster, hsame.failures, hsame.lost⟩ errnum
      rw [hon'.currentClusterNum]
  | failed same broken failures lost => exact .failed same.filepos broken failures lost

theorem advance_moved (n : Nat) (hk : Keyed vol s) (hon : On file k s) : Moved file k n s (s.advance vol n) := by
  induction n generalizing k s with
  | zero => exact .advanced hon hk (.refl s) rfl
  | succ n ih =>
    have hone := next_moved hk hon
    simp only [State.advance]
    generalize s.next vol = result at hone
    cases hone with
    | @advanced s₁ on keyed same errnum =>
      have hrest := ih keyed on
      simp only
      generalize s₁.advance vol n = result at hrest
      have hshift (j : Nat) : k + 1 + j = k + (j + 1) := by omega
      cases hrest with
      | advanced on' keyed' same' errnum' =>
        rw [hshift] at on'
        exact .advanced on' keyed' (same.trans same') (errnum'.trans errnum)
      | @eof _ j short inside on' keyed' same' errnum' last =>
        simp only [hshift] at inside on' last
        exact .eof (Nat.succ_lt_succ short) inside on' keyed' (same.trans same') (errnum'.trans errnum) last
      | @corrupt _ j short inside on' keyed' same' reserved =>
        simp only [hshift] at inside on' reserved
        exact .corrupt (Nat.succ_lt_succ short) inside on' keyed' (same.trans same') reserved
      | failed filepos broken failures lost =>
        refine .failed (filepos.trans same.filepos) ⟨broken.errnum, ?_⟩ (same.failures ▸ failures) (same.lost ▸ lost)
        exact broken.cause.imp (errnum ▸ ·) (same.failures ▸ ·)
    | eof short inside on keyed same errnum last => exact .eof (Nat.lt_of_lt_of_le short (by omega)) inside on keyed same errnum last
    | corrupt short inside on keyed same reserved => exact .corrupt (Nat.lt_of_lt_of_le short (by omega)) inside on keyed same reserved
    | failed filepos broken failures lost => exact .failed filepos broken failures lost

end TrustedGrub.Fat
