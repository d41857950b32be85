import TrustedGrub.Lib.Extents
import TrustedGrub.Xfs.Read

/-!
# Where XFS stores the extents of a file

The specification: the records on the disk, the list of them in the inode, and the leaves of
the B+-tree, of which each names the next one. The lemmas say that the program takes the
records apart as they were put together.
-/

namespace TrustedGrub.Xfs
open Extents (Extent Sorted)
open Fsys (Byte Word Long Block Partition setWidth_ofNat)
open Memory (slice)

/-- The bits of a record. -/
def record (x : Extent) (fsb : Nat) : BitVec 128 :=
  BitVec.ofBool x.unwritten ++ (BitVec.ofNat 54 x.offset ++ (BitVec.ofNat 52 fsb ++ BitVec.ofNat 21 x.len))

/-- The byte of the partition at which a block begins. The number of the block has its
allocation group in the high bits. -/
def Mount.address (m : Mount) (fsb : Nat) : Nat := (fsb / 2 ^ m.agblklog * m.agblocks.toNat + fsb % 2 ^ m.agblklog) * m.bsize

/-- The sizes are such as a file system can have. -/
structure Mount.Sound (m : Mount) : Prop where
  nine : 9 ≤ m.blklog
  sixteen : m.blklog ≤ 16
  agblklog : m.agblklog < 32
  agblocks : 0 < m.agblocks.toNat
  isize : 256 ≤ m.isize.toNat ∧ m.isize.toNat ≤ 2048

variable {σ : Type}

/-- The block is on the partition, `n` bytes from its beginning on. -/
structure Names (d : Partition σ) (m : Mount) (fsb pos n : Nat) : Prop where
  small : fsb < 2 ^ 52
  address : pos = m.address fsb
  inside : pos + n ≤ 512 * d.partLength.toNat

/-- The record of an extent is in a buffer. -/
structure RecordAt (d : Partition σ) (m : Mount) (b : Block) (i : Nat) (x : Extent) : Prop where
  stored : ∃ fsb, Names d m fsb x.start (x.len * m.bsize) ∧ ∀ k < 16, b (i + k) = (record x fsb).extractLsb' (8 * (15 - k)) 8
  offset : x.offset < 2 ^ 54
  len : x.len < 2 ^ 21
  end_le : x.next * m.bsize ≤ 2 ^ 63

/-- Records one behind the other. -/
def Records (d : Partition σ) (m : Mount) (b : Block) : Nat → List Extent → Prop
  | _, [] => True
  | i, x :: es => RecordAt d m b i x ∧ Records d m b (i + 16) es

/-- A leaf of the tree. -/
structure LeafAt (d : Partition σ) (m : Mount) (pos : Nat) (es : List Extent) (rightsib : Long) : Prop where
  level : le16 d.bytes (pos + 4) = 0
  numrecs : le16 d.bytes (pos + 6) = BitVec.ofNat 16 es.length
  rightsib : le64 d.bytes (pos + 16) = rightsib
  some : es ≠ []
  fits : 24 + 16 * es.length ≤ m.bsize
  records : Records d m d.bytes (pos + 24) es

/-- The leaf at `pos` and those to the right of it. Block 0 is no leaf. -/
inductive Leaves (d : Partition σ) (m : Mount) : Nat → List Extent → Prop where
  | last {fsb pos : Nat} {es : List Extent} (names : Names d m fsb pos m.bsize) (behind : 0 < pos)
    (leaf : LeafAt d m pos es (.allOnes 64)) : Leaves d m fsb es
  | next {fsb pos fsb' : Nat} {es rest : List Extent} (names : Names d m fsb pos m.bsize) (behind : 0 < pos)
      (leaf : LeafAt d m pos es (.ofNat 64 fsb')) (others : Leaves d m fsb' rest) : Leaves d m fsb (es ++ rest)

/-- The way down from a block of the tree along the first pointers. -/
inductive Down (d : Partition σ) (m : Mount) : Nat → Nat → Prop where
  | leaf {fsb pos : Nat} (names : Names d m fsb pos m.bsize) (level : le16 d.bytes (pos + 4) = 0) : Down d m fsb fsb
  | node {fsb pos fsb' leaf : Nat} (names : Names d m fsb pos m.bsize) (level : le16 d.bytes (pos + 4) ≠ 0)
      (first : le64 d.bytes (pos + m.btnodePtr0Off) = .ofNat 64 fsb') (rest : Down d m fsb' leaf) : Down d m fsb leaf

/-- The bytes of the data fork. -/
def Inode.forkSize (m : Mount) (inode : Inode) : Nat := if inode.forkoff = 0 then m.isize.toNat - 100 else 8 * inode.forkoff.toNat

/-- The first pointer of the root, behind the room for as many keys as the fork can have. -/
def Inode.first (m : Mount) (inode : Inode) : Long := le64 inode.u (4 + (inode.forkSize m - 4) / 16 * 8)

/-- The extents of a file as it is stored. -/
inductive Stored (d : Partition σ) (m : Mount) (inode : Inode) : List Extent → Prop where
  | extents {es : List Extent} (format : inode.format = .extents) (nextents : inode.nextents = .ofNat 32 es.length)
      (fits : 16 * es.length ≤ inode.forkSize m) (records : Records d m inode.u 0 es) : Stored d m inode es
  | btree {root leaf : Nat} {es : List Extent} (format : inode.format = .btree) (first : inode.first m = .ofNat 64 root)
      (down : Down d m root leaf) (leaves : Leaves d m leaf es) : Stored d m inode es

/-! ## Taking records apart -/

section Decode
variable {d : Partition σ} {m : Mount} {b : Block} {i : Nat} {r : BitVec 128} {x : Extent}

theorem le32_record (h : ∀ k < 16, b (i + k) = r.extractLsb' (8 * (15 - k)) 8) {j : Nat} (hj : j < 4) :
    le32 b (i + 4 * j) = r.extractLsb' (32 * (3 - j)) 32 := by
  have hb : ∀ k < 4, b (i + 4 * j + k) = r.extractLsb' (32 * (3 - j) + 8 * (3 - k)) 8 := by
    intro k hk
    rw [Nat.add_assoc, h _ (by omega)]
    congr 1
    omega
  have h0 := hb 0 (by decide)
  rw [Nat.add_zero] at h0
  apply BitVec.eq_of_getLsbD_eq
  intro n hn
  simp only [le32, le16, h0, hb 1 (by decide), hb 2 (by decide), show i + 4 * j + 2 + 1 = i + 4 * j + 3 from rfl, hb 3 (by decide),
    BitVec.getLsbD_append, BitVec.getLsbD_extractLsb']
  grind

theorem mask32lo_toNat {k : Nat} (hk : k < 32) : (mask32lo k).toNat = 2 ^ k - 1 := by
  have hpow : ((1 : Word) <<< k).toNat = 2 ^ k := by
    apply Eq.trans _ (BitVec.toNat_twoPow_of_lt hk)
    rw [BitVec.twoPow_eq]
    rfl
  rw [mask32lo, BitVec.toNat_sub_of_le]
  · rw [hpow]
    rfl
  · rw [BitVec.le_def, hpow]
    exact Nat.one_le_two_pow

theorem getLsbD_mask32lo {k : Nat} (hk : k < 32) (n : Nat) : (mask32lo k).getLsbD n = decide (n < k) := by
  rw [BitVec.getLsbD, mask32lo_toNat hk, Nat.testBit_two_pow_sub_one]

theorem xtStart_record (h : ∀ k < 16, b (i + k) = r.extractLsb' (8 * (15 - k)) 8) : xtStart b i = (r.extractLsb' 21 52).setWidth 64 := by
  apply BitVec.eq_of_getLsbD_eq
  intro n hn
  have h1 := le32_record h (j := 1) (by decide)
  have h2 := le32_record h (j := 2) (by decide)
  have h3 := le32_record h (j := 3) (by decide)
  rw [xtStart, h1, h2, h3]
  simp only [BitVec.getLsbD_or, BitVec.getLsbD_shiftLeft, BitVec.getLsbD_ushiftRight, BitVec.getLsbD_setWidth, BitVec.getLsbD_and,
    BitVec.getLsbD_extractLsb', getLsbD_mask32lo (k := 9) (by decide)]
  grind

theorem xtOffset_record (h : ∀ k < 16, b (i + k) = r.extractLsb' (8 * (15 - k)) 8) : xtOffset b i = (r.extractLsb' 73 54).setWidth 64 := by
  apply BitVec.eq_of_getLsbD_eq
  intro n hn
  have h0 := le32_record h (j := 0) (by decide)
  have h1 := le32_record h (j := 1) (by decide)
  rw [Nat.mul_zero, Nat.add_zero] at h0
  rw [xtOffset, h0, h1]
  simp only [BitVec.getLsbD_or, BitVec.getLsbD_shiftLeft, BitVec.getLsbD_ushiftRight, BitVec.getLsbD_setWidth, BitVec.getLsbD_and,
    BitVec.getLsbD_extractLsb', getLsbD_mask32lo (k := 31) (by decide)]
  grind

theorem xtLen_record (h : ∀ k < 16, b (i + k) = r.extractLsb' (8 * (15 - k)) 8) : xtLen b i = (r.extractLsb' 0 21).setWidth 64 := by
  apply BitVec.eq_of_getLsbD_eq
  intro n hn
  have h3 := le32_record h (j := 3) (by decide)
  rw [xtLen, h3]
  simp only [BitVec.getLsbD_setWidth, BitVec.getLsbD_and, BitVec.getLsbD_extractLsb', getLsbD_mask32lo (k := 21) (by decide)]
  grind

theorem record_len (x : Extent) (fsb : Nat) : (record x fsb).extractLsb' 0 21 = .ofNat 21 x.len := by
  rw [record, BitVec.extractLsb'_append_eq_of_add_le (by decide), BitVec.extractLsb'_append_eq_of_add_le (by decide),
    BitVec.extractLsb'_append_eq_of_add_le (by decide), BitVec.extractLsb'_eq_self]

theorem record_start (x : Extent) (fsb : Nat) : (record x fsb).extractLsb' 21 52 = .ofNat 52 fsb := by
  rw [record, BitVec.extractLsb'_append_eq_of_add_le (by decide), BitVec.extractLsb'_append_eq_of_add_le (by decide),
    BitVec.extractLsb'_append_eq_of_le (by decide), BitVec.extractLsb'_eq_self]

theorem record_offset (x : Extent) (fsb : Nat) : (record x fsb).extractLsb' 73 54 = .ofNat 54 x.offset := by
  rw [record, BitVec.extractLsb'_append_eq_of_add_le (by decide), BitVec.extractLsb'_append_eq_of_le (by decide),
    BitVec.extractLsb'_eq_self]

/-! ## Blocks -/

theorem Mount.address_eq (m : Mount) (h9 : 9 ≤ m.blklog) (fsb : Nat) :
    m.address fsb = 512 * ((fsb / 2 ^ m.agblklog * m.agblocks.toNat + fsb % 2 ^ m.agblklog) * 2 ^ m.bdlog) := by
  have hbsize : m.bsize = 2 ^ m.bdlog * 512 := by
    rw [Mount.bsize, Mount.bdlog, show 512 = 2 ^ 9 from rfl, ← Nat.pow_add, Nat.sub_add_cancel h9]
  rw [Mount.address, hbsize, ← Nat.mul_assoc, Nat.mul_comm]

/-- The sector of a block. -/
theorem Names.sector {fsb pos n : Nat} (h : Names d m fsb pos n) (hm : m.Sound) :
    ∃ sector, pos = 512 * sector ∧ fsb2daddr m (.ofNat 64 fsb) = .ofNat 64 sector ∧ sector ≤ d.partLength.toNat := by
  have hle : (fsb / 2 ^ m.agblklog * m.agblocks.toNat + fsb % 2 ^ m.agblklog) * 2 ^ m.bdlog ≤ d.partLength.toNat := by
    have hinside := h.inside
    rw [h.address, m.address_eq hm.nine] at hinside
    omega
  refine ⟨_, h.address.trans (m.address_eq hm.nine fsb), ?_, hle⟩
  have hsmall := Nat.lt_of_le_of_lt hle d.partLength.isLt
  have hblock := Nat.lt_of_le_of_lt (Nat.le_mul_of_pos_right _ (Nat.two_pow_pos m.bdlog)) hsmall
  have hagno : fsb / 2 ^ m.agblklog < 2 ^ 32 :=
    Nat.lt_of_le_of_lt (Nat.le_trans (Nat.le_mul_of_pos_right _ hm.agblocks) (Nat.le_add_right _ _)) hblock
  have hagbno : fsb % 2 ^ m.agblklog < 2 ^ 32 :=
    Nat.lt_trans (Nat.mod_lt _ (Nat.two_pow_pos _)) (Nat.pow_lt_pow_right (by decide) hm.agblklog)
  have hfsb : fsb % 2 ^ 64 = fsb := Nat.mod_eq_of_lt (Nat.lt_trans h.small (by decide))
  have hhigh : ((BitVec.ofNat 64 fsb >>> m.agblklog).setWidth 32).toNat = fsb / 2 ^ m.agblklog := by
    rw [BitVec.toNat_setWidth, BitVec.toNat_ushiftRight, BitVec.toNat_ofNat, hfsb, Nat.shiftRight_eq_div_pow, Nat.mod_eq_of_lt hagno]
  have hmask : ((mask32lo m.agblklog).setWidth 64).toNat = 2 ^ m.agblklog - 1 := by
    rw [BitVec.toNat_setWidth_of_le (by decide), mask32lo_toNat hm.agblklog]
  have hlow : ((BitVec.ofNat 64 fsb &&& (mask32lo m.agblklog).setWidth 64).setWidth 32).toNat = fsb % 2 ^ m.agblklog := by
    rw [BitVec.toNat_setWidth, BitVec.toNat_and, BitVec.toNat_ofNat, hfsb, hmask, Nat.and_two_pow_sub_one_eq_mod, Nat.mod_eq_of_lt hagbno]
  have hwide : ∀ w : Word, (w.setWidth 64).toNat = w.toNat := fun w => BitVec.toNat_setWidth_of_le (by decide)
  apply BitVec.eq_of_toNat_eq
  have hproduct := Nat.lt_of_le_of_lt (Nat.le_add_right (fsb / 2 ^ m.agblklog * m.agblocks.toNat) (fsb % 2 ^ m.agblklog)) hblock
  rw [fsb2daddr, agb2daddr, BitVec.toNat_shiftLeft, BitVec.toNat_add, BitVec.toNat_mul, hwide, hwide, hwide, hhigh, hlow,
    BitVec.toNat_ofNat, Nat.shiftLeft_eq,
    Nat.mod_eq_of_lt (Nat.lt_trans hproduct (by decide)), Nat.mod_eq_of_lt (Nat.lt_trans hblock (by decide))]

end Decode

end TrustedGrub.Xfs
