import TrustedGrub.Disk.BlockName
import TrustedGrub.Lib.Memory

/-!
# Partition tables

The fields of an MBR, of the boot sector of an extended partition and of a BSD disk
label, as `pc_slice.h` reads them, and GRUB's partition words.
-/

namespace TrustedGrub.Partition
open Fips180 (Byte)
open Disk (sectorSize)
open Memory (store)

/-- Bytes in memory, from the start of a buffer on. -/
abbrev Buffer := Nat → Byte

def le16 (buf : Buffer) (off : Nat) : Nat := (buf off).toNat + 0x100 * (buf (off + 1)).toNat
def le32 (buf : Buffer) (off : Nat) : Nat := le16 buf off + 0x10000 * le16 buf (off + 2)

theorem le32_lt (buf : Buffer) (off : Nat) : le32 buf off < 2 ^ 32 := by
  unfold le32 le16
  omega

/-! ### Stores -/

/-- What an assignment through a pointer stores, the low byte first. -/
def putByte (buf : Buffer) (off v : Nat) : Buffer := store buf off [BitVec.ofNat 8 v]
def putShort (buf : Buffer) (off v : Nat) : Buffer := store buf off [BitVec.ofNat 8 v, BitVec.ofNat 8 (v >>> 8)]
def putLong (buf : Buffer) (off v : Nat) : Buffer :=
  store buf off [BitVec.ofNat 8 v, BitVec.ofNat 8 (v >>> 8), BitVec.ofNat 8 (v >>> 16), BitVec.ofNat 8 (v >>> 24)]

theorem putShort_elsewhere {buf : Buffer} {off v x : Nat} (h : x < off ∨ off + 2 ≤ x) : putShort buf off v x = buf x := by
  rcases h with h | h
  · exact Memory.store_of_lt h
  · exact Memory.store_of_ge h

theorem putLong_elsewhere {buf : Buffer} {off v x : Nat} (h : x < off ∨ off + 4 ≤ x) : putLong buf off v x = buf x := by
  rcases h with h | h
  · exact Memory.store_of_lt h
  · exact Memory.store_of_ge h

theorem le16_congr {buf buf' : Buffer} {off : Nat} (h : ∀ x, off ≤ x → x < off + 2 → buf x = buf' x) : le16 buf off = le16 buf' off := by
  unfold le16
  rw [h off (by omega) (by omega), h (off + 1) (by omega) (by omega)]

theorem le32_congr {buf buf' : Buffer} {off : Nat} (h : ∀ x, off ≤ x → x < off + 4 → buf x = buf' x) : le32 buf off = le32 buf' off := by
  unfold le32
  rw [le16_congr fun x hlo hhi => h x hlo (by omega), le16_congr fun x hlo hhi => h x (by omega) (by omega)]

/-- Four bytes of a number are read back. -/
theorem le32_bytes {buf : Buffer} {off n : Nat} (hn : n < 2 ^ 32)
    (h : ∀ i < 4, buf (off + i) = BitVec.ofNat 8 (n / 0x100 ^ i)) : le32 buf off = n := by
  have h0 := h 0 (by decide)
  have h1 := h 1 (by decide)
  have h2 := h 2 (by decide)
  have h3 := h 3 (by decide)
  unfold le32 le16
  rw [Nat.add_assoc off 2 1]
  rw [Nat.add_zero] at h0
  rw [h0, h1, h2, h3]
  simp only [BitVec.toNat_ofNat]
  omega

theorem le32_putLong {buf : Buffer} {off v : Nat} (hv : v < 2 ^ 32) : le32 (putLong buf off v) off = v := by
  apply le32_bytes hv
  intro i hi
  have hin : i < [BitVec.ofNat 8 v, BitVec.ofNat 8 (v >>> 8), BitVec.ofNat 8 (v >>> 16), BitVec.ofNat 8 (v >>> 24)].length := hi
  have hbyte : putLong buf off v (off + i) = _ := Memory.store_at hin
  rw [hbyte]
  rcases i with _ | _ | _ | _ | i
  · rw [Nat.pow_zero, Nat.div_one]
    rfl
  · exact congrArg (BitVec.ofNat 8) (Nat.shiftRight_eq_div_pow v 8)
  · exact congrArg (BitVec.ofNat 8) (Nat.shiftRight_eq_div_pow v 16)
  · exact congrArg (BitVec.ofNat 8) (Nat.shiftRight_eq_div_pow v 24)
  · omega

theorem le16_putShort (buf : Buffer) (off v : Nat) : le16 (putShort buf off v) off = v % 0x10000 := by
  have h₀ : putShort buf off v off = BitVec.ofNat 8 v := Memory.store_at (i := 0) (by simp only [List.length_cons]; omega)
  have h₁ : putShort buf off v (off + 1) = BitVec.ofNat 8 (v >>> 8) := Memory.store_at (i := 1) (by simp only [List.length_cons]; omega)
  unfold le16
  rw [h₀, h₁]
  simp only [BitVec.toNat_ofNat, Nat.shiftRight_eq_div_pow]
  omega

/-! ## PC slices -/

def pcSliceMax : Nat := 4

/-- `PC_MBR_CHECK_SIG`. -/
def pcMbrCheckSig (mbr : Buffer) : Bool := le16 mbr 510 = 0xAA55

def pcSliceType (mbr : Buffer) (part : Nat) : Nat := (mbr (446 + 4 + 16 * part)).toNat
def pcSliceStart (mbr : Buffer) (part : Nat) : Nat := le32 mbr (446 + 8 + 16 * part)
def pcSliceLength (mbr : Buffer) (part : Nat) : Nat := le32 mbr (446 + 12 + 16 * part)

def pcSliceTypeNone : Nat := 0
def pcSliceTypeFreebsd : Nat := 0xA5

def isPcSliceTypeExtended (type : Nat) : Bool := type = 0x05 ∨ type = 0x0F ∨ type = 0x85
def isPcSliceTypeBsd (type : Nat) : Bool := type = pcSliceTypeFreebsd ∨ type = 0xA6 ∨ type = 0xA9

/-! ## BSD labels -/

def bsdLabelSector : Nat := 1

/-- `BSD_LABEL_CHECK_MAG`. -/
def bsdLabelCheckMag (label : Buffer) : Bool := le32 label 0 = 0x82564557

def bsdLabelDtype (label : Buffer) : Nat := le16 label 4
def dtypeScsi : Nat := 4

/-- `BSD_LABEL_NPARTS`. Nothing bounds it, and the table of a large label would lie
behind the sector. -/
def bsdLabelNparts (label : Buffer) : Nat := le16 label 138

def bsdPartLength (label : Buffer) (part : Nat) : Nat := le32 label (148 + 16 * part)
def bsdPartStart (label : Buffer) (part : Nat) : Nat := le32 label (148 + 4 + 16 * part)
def bsdPartType (label : Buffer) (part : Nat) : Nat := (label (148 + 12 + 16 * part)).toNat

/-- What a pointer to a sector's buffer reads: the sector, and the memory behind it. -/
def withBeyond (buf beyond : Buffer) : Buffer := fun i => if i < sectorSize then buf i else beyond i

/-! ## Partition words -/

/-- The PC slice number, 0xFF for none. -/
def sliceNo (partition : Nat) : Nat := (partition &&& 0xFF0000) >>> 16
/-- The BSD partition number, 0xFF for none. -/
def bsdPartNo (partition : Nat) : Nat := (partition &&& 0xFF00) >>> 8

/-- A word with both numbers. -/
def word (slice bsd : Nat) : Nat := slice <<< 16 ||| bsd <<< 8 ||| 0xFF

theorem word_eq {slice bsd : Nat} (hb : bsd < 0x100) : word slice bsd = 0x10000 * slice + 0x100 * bsd + 0xFF := by
  have hlow : bsd <<< 8 ||| 0xFF = 0x100 * bsd + 0xFF := by
    rw [← Nat.shiftLeft_add_eq_or_of_lt (by decide), Nat.shiftLeft_eq, Nat.mul_comm]
  unfold word
  rw [Nat.or_assoc, hlow, ← Nat.shiftLeft_add_eq_or_of_lt (by omega), Nat.shiftLeft_eq]
  omega

@[simp] theorem sliceNo_eq (partition : Nat) : sliceNo partition = partition / 0x10000 % 0x100 := by
  unfold sliceNo
  rw [Nat.shiftRight_and_distrib, Nat.shiftRight_eq_div_pow]
  exact Nat.and_two_pow_sub_one_eq_mod _ 8

@[simp] theorem bsdPartNo_eq (partition : Nat) : bsdPartNo partition = partition / 0x100 % 0x100 := by
  unfold bsdPartNo
  rw [Nat.shiftRight_and_distrib, Nat.shiftRight_eq_div_pow]
  exact Nat.and_two_pow_sub_one_eq_mod _ 8

end TrustedGrub.Partition
