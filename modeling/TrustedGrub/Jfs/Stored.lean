import TrustedGrub.Lib.Extents
import TrustedGrub.Jfs.Read

/-!
# Where JFS stores the extents of a file

The specification: the entries on the disk, the root of the tree in the inode, and the leaves,
of which each names the next one.
-/

namespace TrustedGrub.Jfs
open Extents (Extent)
open Fsys (Byte Word Long Block Partition setWidth_ofNat ofNat_shiftLeft)

/-- The bits of an entry, from the lowest byte on: flags, the offset, the length and the
address, the high bits of a number before the low ones. -/
def entry (flag : Byte) (rsvrd : BitVec 16) (x : Extent) (address : Nat) : BitVec 128 :=
  BitVec.ofNat 32 address ++ (BitVec.ofNat 8 (address / 2 ^ 32) ++ (BitVec.ofNat 24 x.len ++
    (BitVec.ofNat 32 x.offset ++ (BitVec.ofNat 8 (x.offset / 2 ^ 32) ++ (rsvrd ++ flag)))))

/-- The block sizes that JFS has. -/
structure Mount.Sound (m : Mount) : Prop where
  nine : 9 ≤ m.l2bsize
  twelve : m.l2bsize ≤ 12

variable {σ : Type}

/-- A block behind the first one is on the partition, and `n` bytes from its beginning on. -/
structure Names (d : Partition σ) (m : Mount) (address pos n : Nat) : Prop where
  behind : 0 < address
  pos_eq : pos = address * m.bsize
  inside : pos + n ≤ 512 * d.partLength.toNat

/-- The entry of an extent is in a buffer. -/
structure EntryAt (d : Partition σ) (m : Mount) (b : Block) (i : Nat) (x : Extent) : Prop where
  stored : ∃ flag rsvrd address, address < 2 ^ 40 ∧ Names d m address x.start (x.len * m.bsize) ∧
    ∀ k < 16, b (i + k) = (entry flag rsvrd x address).extractLsb' (8 * k) 8
  offset : x.offset < 2 ^ 40
  len : x.len < 2 ^ 24
  recorded : x.unwritten = false

/-- Entries one behind the other. -/
def Entries (d : Partition σ) (m : Mount) (b : Block) : Nat → List Extent → Prop
  | _, [] => True
  | i, x :: es => EntryAt d m b i x ∧ Entries d m b (i + 16) es

/-- A leaf of the tree, with its link to the next one. -/
structure LeafAt (d : Partition σ) (m : Mount) (pos : Nat) (es : List Extent) (next : Long) : Prop where
  flag : d.bytes (pos + 16) &&& 2 ≠ 0
  nextindex : le16 d.bytes (pos + 18) = .ofNat 16 (2 + es.length)
  next : le64 d.bytes pos = next
  some : es ≠ []
  fits : 2 + es.length ≤ 256
  entries : Entries d m d.bytes (pos + 32) es

/-- The leaves behind one with the link `next`, with their places. -/
inductive Chain (d : Partition σ) (m : Mount) : Long → List (Nat × List Extent) → Prop where
  | last : Chain d m 0 []
  | next {address pos : Nat} {es : List Extent} {next : Long} {later : List (Nat × List Extent)} (small : address < 2 ^ 40)
    (names : Names d m address pos 4096)
      (leaf : LeafAt d m pos es next) (others : Chain d m next later) : Chain d m (.ofNat 64 address) ((pos, es) :: later)

/-- The way down from a page of the tree, along the first entries. -/
inductive Down (d : Partition σ) (m : Mount) : Long → Nat → Prop where
  | leaf {address pos : Nat} (small : address < 2 ^ 40) (names : Names d m address pos 4096) (flag : d.bytes (pos + 16) &&& 2 ≠ 0) :
      Down d m (.ofNat 64 address) pos
  | node {address pos leaf : Nat} (small : address < 2 ^ 40) (names : Names d m address pos 4096) (flag : d.bytes (pos + 16) &&& 2 = 0)
      (rest : Down d m (addressXAD d.bytes (pos + 32)) leaf) : Down d m (.ofNat 64 address) leaf

/-- The extents of a file as they are stored: those in the first leaf, and the other leaves. -/
inductive Stored (d : Partition σ) (m : Mount) (root : Block) : List Extent → List (Nat × List Extent) → Prop where
  | root {es : List Extent} (flag : root 16 &&& 2 ≠ 0) (nextindex : le16 root 18 = .ofNat 16 (2 + es.length)) (fits : 2 + es.length ≤ 18)
      (entries : Entries d m root 32 es) : Stored d m root es []
  | tree {pos : Nat} {es : List Extent} {next : Long} {later : List (Nat × List Extent)} (flag : root 16 &&& 2 = 0)
      (down : Down d m (addressXAD root 32) pos) (leaf : LeafAt d m pos es next) (others : Chain d m next later) : Stored d m root es later

/-- The extents of a file in order. -/
def allExtents (es : List Extent) (later : List (Nat × List Extent)) : List Extent := es ++ later.flatMap Prod.snd

/-! ## Taking entries apart -/

section Decode
variable {d : Partition σ} {m : Mount} {b : Block} {i : Nat} {r : BitVec 128} {x : Extent}

/-- Two parts of a number of 40 bits. -/
theorem parts_ofNat {n : Nat} (hn : n < 2 ^ 40) :
    ((BitVec.ofNat 8 (n / 2 ^ 32)).setWidth 64 <<< 32) ||| (BitVec.ofNat 32 n).setWidth 64 = .ofNat 64 n := by
  apply BitVec.eq_of_getLsbD_eq
  intro k hk
  have hhigh : 40 ≤ k → n.testBit k = false := fun h => Nat.testBit_lt_two_pow (Nat.lt_of_lt_of_le hn (Nat.pow_le_pow_right Nat.two_pos h))
  simp only [BitVec.getLsbD_or, BitVec.getLsbD_shiftLeft, BitVec.getLsbD_setWidth, BitVec.getLsbD_ofNat, Nat.testBit_div_two_pow]
  by_cases hlow : k < 32
  · simp only [hlow, hk, decide_true, Bool.not_true, Bool.and_false, Bool.true_and, Bool.false_and, Bool.false_or]
  · rw [show k - 32 + 32 = k by omega]
    grind

theorem le32_entry {j : Nat} (h : ∀ k < 16, b (i + k) = r.extractLsb' (8 * k) 8) (hj : j + 4 ≤ 16) :
    le32 b (i + j) = r.extractLsb' (8 * j) 32 := by
  apply BitVec.eq_of_getLsbD_eq
  intro n hn
  have hb : ∀ k < 4, b (i + j + k) = r.extractLsb' (8 * (j + k)) 8 := fun k hk => by rw [Nat.add_assoc, h _ (by omega)]
  have h0 := hb 0 (by decide)
  rw [Nat.add_zero] at h0
  simp only [le32, le16, h0, hb 1 (by decide), hb 2 (by decide), show i + j + 2 + 1 = i + j + 3 from rfl, hb 3 (by decide),
    BitVec.getLsbD_append, BitVec.getLsbD_extractLsb']
  grind

theorem offsetXAD_entry (h : ∀ k < 16, b (i + k) = r.extractLsb' (8 * k) 8) :
    offsetXAD b i = ((r.extractLsb' 24 8).setWidth 64 <<< 32) ||| (r.extractLsb' 32 32).setWidth 64 := by
  rw [offsetXAD, h 3 (by decide), le32_entry h (by decide)]

theorem addressXAD_entry (h : ∀ k < 16, b (i + k) = r.extractLsb' (8 * k) 8) :
    addressXAD b i = ((r.extractLsb' 88 8).setWidth 64 <<< 32) ||| (r.extractLsb' 96 32).setWidth 64 := by
  rw [addressXAD, h 11 (by decide), le32_entry h (by decide)]

theorem lengthXAD_entry (h : ∀ k < 16, b (i + k) = r.extractLsb' (8 * k) 8) : lengthXAD b i = (r.extractLsb' 64 24).setWidth 64 := by
  rw [lengthXAD, h 8 (by decide), h 9 (by decide), h 10 (by decide)]
  congr 1
  apply BitVec.eq_of_getLsbD_eq
  intro n hn
  simp only [BitVec.getLsbD_append, BitVec.getLsbD_extractLsb']
  grind

theorem entry_offset (flag : Byte) (rsvrd : BitVec 16) (x : Extent) (address : Nat) :
    (entry flag rsvrd x address).extractLsb' 24 8 = .ofNat 8 (x.offset / 2 ^ 32) ∧
      (entry flag rsvrd x address).extractLsb' 32 32 = .ofNat 32 x.offset := by
  constructor
  · rw [entry, BitVec.extractLsb'_append_eq_of_add_le (by decide), BitVec.extractLsb'_append_eq_of_add_le (by decide),
      BitVec.extractLsb'_append_eq_of_add_le (by decide), BitVec.extractLsb'_append_eq_of_add_le (by decide),
      BitVec.extractLsb'_append_eq_of_le (by decide), BitVec.extractLsb'_eq_self]
  · rw [entry, BitVec.extractLsb'_append_eq_of_add_le (by decide), BitVec.extractLsb'_append_eq_of_add_le (by decide),
      BitVec.extractLsb'_append_eq_of_add_le (by decide), BitVec.extractLsb'_append_eq_of_le (by decide), BitVec.extractLsb'_eq_self]

theorem entry_address (flag : Byte) (rsvrd : BitVec 16) (x : Extent) (address : Nat) :
    (entry flag rsvrd x address).extractLsb' 88 8 = .ofNat 8 (address / 2 ^ 32) ∧
      (entry flag rsvrd x address).extractLsb' 96 32 = .ofNat 32 address := by
  constructor
  · rw [entry, BitVec.extractLsb'_append_eq_of_add_le (by decide), BitVec.extractLsb'_append_eq_of_le (by decide),
      BitVec.extractLsb'_eq_self]
  · rw [entry, BitVec.extractLsb'_append_eq_of_le (by decide), BitVec.extractLsb'_eq_self]

theorem entry_len (flag : Byte) (rsvrd : BitVec 16) (x : Extent) (address : Nat) :
    (entry flag rsvrd x address).extractLsb' 64 24 = .ofNat 24 x.len := by
  rw [entry, BitVec.extractLsb'_append_eq_of_add_le (by decide), BitVec.extractLsb'_append_eq_of_add_le (by decide),
    BitVec.extractLsb'_append_eq_of_le (by decide), BitVec.extractLsb'_eq_self]

/-- The sector of a block. -/
theorem Names.sector {address pos n : Nat} (h : Names d m address pos n) (hm : m.Sound) :
    ∃ sector, pos = 512 * sector ∧ 0 < sector ∧ (BitVec.ofNat 64 address <<< m.bdlog).setWidth 32 = .ofNat 32 sector := by
  have hbsize : m.bsize = 512 * 2 ^ m.bdlog := by
    rw [Mount.bsize, Mount.bdlog, show 512 = 2 ^ 9 from rfl, ← Nat.pow_add, Nat.add_sub_cancel' hm.nine]
  refine ⟨address * 2 ^ m.bdlog, ?_, Nat.mul_pos h.behind (Nat.two_pow_pos _), ?_⟩
  · rw [h.pos_eq, hbsize, Nat.mul_left_comm]
  · rw [ofNat_shiftLeft]
    exact BitVec.setWidth_ofNat_of_le (by decide) _

/-- What the program makes of an entry. -/
structure Up (d : Partition σ) (m : Mount) (b : Block) (i : Nat) (x : Extent) : Prop where
  offset : offsetXAD b i = .ofNat 64 x.offset
  len : lengthXAD b i = .ofNat 64 x.len
  address : addressXAD b i = .ofNat 64 (x.start / m.bsize)
  start : ∃ sector, x.start = 512 * sector ∧ 0 < sector ∧ (addressXAD b i <<< m.bdlog).setWidth 32 = .ofNat 32 sector
  inside : x.start + x.len * m.bsize ≤ 512 * d.partLength.toNat
  offset_lt : x.offset < 2 ^ 40
  len_lt : x.len < 2 ^ 24

theorem EntryAt.up (h : EntryAt d m b i x) (hm : m.Sound) : Up d m b i x := by
  obtain ⟨⟨flag, rsvrd, address, hsmall, hnames, hstored⟩, hoffset, hlen, -⟩ := h
  obtain ⟨sector, hsector, hpos, hshift⟩ := hnames.sector hm
  have haddress : addressXAD b i = .ofNat 64 address := by
    rw [addressXAD_entry hstored, (entry_address flag rsvrd x address).1, (entry_address flag rsvrd x address).2, parts_ofNat hsmall]
  refine ⟨?_, ?_, ?_, ⟨sector, hsector, hpos, ?_⟩, hnames.inside, hoffset, hlen⟩
  · rw [offsetXAD_entry hstored, (entry_offset flag rsvrd x address).1, (entry_offset flag rsvrd x address).2, parts_ofNat hoffset]
  · rw [lengthXAD_entry hstored, entry_len, setWidth_ofNat hlen (by decide)]
  · rw [haddress, hnames.pos_eq, Nat.mul_div_cancel _ (show 0 < m.bsize from Nat.two_pow_pos _)]
  · rw [haddress, hshift]

theorem nextindex_eq {n : Nat} (h : le16 b 18 = .ofNat 16 n) (hn : n < 2 ^ 15) : nextindex b = .ofNat 32 n := by
  have hvalue : (BitVec.ofNat 16 n).toNat = n := by
    rw [BitVec.toNat_ofNat, Nat.mod_eq_of_lt (by omega)]
  rw [nextindex, h, BitVec.signExtend_eq_setWidth_of_msb_false, setWidth_ofNat (by omega) (by decide)]
  rw [BitVec.msb_eq_false_iff_two_mul_lt, hvalue]
  omega

end Decode

end TrustedGrub.Jfs
