import TrustedGrub.Partition.Tables

/-!
# The Multiboot header in `load_image`

The part of `load_image` that looks for a Multiboot header, and what it makes of the
address fields.
-/

namespace TrustedGrub.Boot
open Fips180 (Byte)
open Disk (GrubError)
open TrustedGrub.Partition (Buffer le16 le32)

/-- The header as far as its address fields. The graphics fields are behind them. -/
structure MultibootHeader where
  magic : BitVec 32
  flags : BitVec 32
  checksum : BitVec 32
  headerAddr : BitVec 32
  loadAddr : BitVec 32
  loadEndAddr : BitVec 32
  bssEndAddr : BitVec 32
  entryAddr : BitVec 32
  deriving DecidableEq

def word32 (buf : Buffer) (off : Nat) : BitVec 32 := .ofNat 32 (le32 buf off)

def multibootHeader (buf : Buffer) (i : Nat) : MultibootHeader where
  magic := word32 buf i
  flags := word32 buf (i + 4)
  checksum := word32 buf (i + 8)
  headerAddr := word32 buf (i + 12)
  loadAddr := word32 buf (i + 16)
  loadEndAddr := word32 buf (i + 20)
  bssEndAddr := word32 buf (i + 24)
  entryAddr := word32 buf (i + 28)

def multibootSearch : Nat := 8192
def multibootMagic : BitVec 32 := 0x1BADB002
def multibootUnsupported : BitVec 32 := 0x0000FFF8
def multibootVideoMode : BitVec 32 := 0x00000004
def multibootAoutKludge : BitVec 32 := 0x00010000

/-- The sum of the magic fields. -/
def MultibootHeader.sum (h : MultibootHeader) : BitVec 32 := h.magic + h.flags + h.checksum

/-- `MULTIBOOT_FOUND`, in a buffer that is aligned. -/
def multibootFound (buf : Buffer) (len i : Nat) : Prop :=
  i % 4 = 0 ∧ i + 12 ≤ len ∧ word32 buf i = multibootMagic ∧ (multibootHeader buf i).sum = 0 ∧
    (multibootAoutKludge &&& (multibootHeader buf i).flags ≠ 0 → i + 32 ≤ len) ∧
    (multibootVideoMode &&& (multibootHeader buf i).flags ≠ 0 → i + 48 ≤ len)

instance (buf : Buffer) (len i : Nat) : Decidable (multibootFound buf len i) :=
  inferInstanceAs (Decidable (_ ∧ _ ∧ _ ∧ _ ∧ _ ∧ _))

/-- `BOOTABLE_I386_ELF`, in a file that is long enough. -/
def bootableI386Elf (buf : Buffer) (len : Nat) : Prop :=
  52 < len ∧ buf 0 = 0x7F ∧ buf 1 = 0x45 ∧ buf 2 = 0x4C ∧ buf 3 = 0x46 ∧ buf 4 = 1 ∧ buf 5 = 1 ∧ buf 6 = 1 ∧
    le16 buf 16 = 2 ∧ le16 buf 18 = 3 ∧ le32 buf 20 = 1

instance (buf : Buffer) (len : Nat) : Decidable (bootableI386Elf buf len) :=
  inferInstanceAs (Decidable (_ ∧ _ ∧ _ ∧ _ ∧ _ ∧ _ ∧ _ ∧ _ ∧ _ ∧ _ ∧ _))

/-- `load_end_addr` for a file of `filemax` bytes: if it is zero, the whole contents are loaded. -/
def MultibootHeader.loadEnd (h : MultibootHeader) (filemax : Nat) : BitVec 32 :=
  if h.loadEndAddr = 0 then h.loadAddr + .ofNat 32 filemax else h.loadEndAddr

/-- `bss_end_addr`: if it is zero, there is no bss area. -/
def MultibootHeader.bssEnd (h : MultibootHeader) (filemax : Nat) : BitVec 32 :=
  if h.bssEndAddr = 0 then h.loadEnd filemax else h.bssEndAddr

/-- The address fields do not fit together. -/
def MultibootHeader.misplaced (h : MultibootHeader) (i filemax : Nat) : Prop :=
  h.headerAddr < h.loadAddr ∨ h.loadEnd filemax ≤ h.loadAddr ∨ h.bssEnd filemax < h.loadEnd filemax ∨
    i < (h.headerAddr - h.loadAddr).toNat

instance (h : MultibootHeader) (i filemax : Nat) : Decidable (h.misplaced i filemax) :=
  inferInstanceAs (Decidable (_ ∨ _ ∨ _ ∨ _))

/-- The offset of the first header. -/
def findMultiboot (buf : Buffer) (len : Nat) : Option Nat := (List.range len).find? fun i => multibootFound buf len i

/-! ## The search -/

section Search
variable {buf : Buffer} {len i : Nat}

/-- The first header is at `i`. -/
theorem findMultiboot_eq : findMultiboot buf len = some i ↔ multibootFound buf len i ∧ ∀ j < i, ¬ multibootFound buf len j := by
  rw [findMultiboot, List.find?_range_eq_some, decide_eq_true_iff, List.mem_range]
  constructor
  · rintro ⟨hfound, -, hbefore⟩
    refine ⟨hfound, fun j hj hfound => ?_⟩
    have hnot := hbefore j hj
    rw [decide_eq_true hfound] at hnot
    exact Bool.false_ne_true hnot
  · rintro ⟨hfound, hbefore⟩
    refine ⟨hfound, ?_, fun j hj => ?_⟩
    · have hroom := hfound.2.1
      omega
    · rw [decide_eq_false (hbefore j hj)]
      rfl

end Search

/-! ## Two buffers -/

section Congr
variable {a b : Buffer} {n len i off : Nat}

theorem le16_congr (h : ∀ k < n, a k = b k) (hoff : off + 2 ≤ n) : le16 a off = le16 b off := by
  unfold le16
  rw [h off (by omega), h (off + 1) (by omega)]

theorem le32_congr (h : ∀ k < n, a k = b k) (hoff : off + 4 ≤ n) : le32 a off = le32 b off := by
  unfold le32
  rw [le16_congr h (show off + 2 ≤ n by omega), le16_congr h (show off + 2 + 2 ≤ n by omega)]

theorem word32_congr (h : ∀ k < n, a k = b k) (hoff : off + 4 ≤ n) : word32 a off = word32 b off :=
  congrArg (BitVec.ofNat 32) (le32_congr h hoff)

theorem multibootHeader_congr (h : ∀ k < n, a k = b k) (hi : i + 32 ≤ n) : multibootHeader a i = multibootHeader b i := by
  unfold multibootHeader
  rw [word32_congr h (show i + 4 ≤ n by omega), word32_congr h (show i + 4 + 4 ≤ n by omega),
    word32_congr h (show i + 8 + 4 ≤ n by omega), word32_congr h (show i + 12 + 4 ≤ n by omega),
    word32_congr h (show i + 16 + 4 ≤ n by omega), word32_congr h (show i + 20 + 4 ≤ n by omega),
    word32_congr h (show i + 24 + 4 ≤ n by omega), word32_congr h (show i + 28 + 4 ≤ n by omega)]

theorem flags_congr (h : ∀ k < n, a k = b k) (hi : i + 12 ≤ n) : (multibootHeader a i).flags = (multibootHeader b i).flags :=
  word32_congr h (show i + 4 + 4 ≤ n by omega)

theorem sum_congr (h : ∀ k < n, a k = b k) (hi : i + 12 ≤ n) : (multibootHeader a i).sum = (multibootHeader b i).sum := by
  show word32 a i + word32 a (i + 4) + word32 a (i + 8) = word32 b i + word32 b (i + 4) + word32 b (i + 8)
  rw [word32_congr h (show i + 4 ≤ n by omega), word32_congr h (show i + 4 + 4 ≤ n by omega),
    word32_congr h (show i + 8 + 4 ≤ n by omega)]

end Congr

end TrustedGrub.Boot
