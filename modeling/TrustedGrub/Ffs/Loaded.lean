import TrustedGrub.Ffs.BlockMap
import TrustedGrub.Lib.Session

/-!
# What is in the map

The map holds some bytes of an indirect block. A request that finds its block in the map takes
the entry from there, wherever it lies; only what is taken right after the map was loaded is
sure to lie in it.
-/

namespace TrustedGrub.Ffs
open Fsys
open Disk (GrubError)
open Session (Along)

variable {σ : Type}

/-! ## Requests -/

/-- The superblock states a size of a block that holds `nindir` pointers of `k` bytes. -/
structure Superblock.Sound (k : Nat) (sb : Superblock) : Prop where
  bsize : sb.bsize.toNat = k * sb.nindir.toNat
  small : sb.bsize.toNat + 8192 < 2 ^ 31

/-- A request for a block of the file of an inode. -/
structure Request (k : Nat) where
  inode : Inode k
  fileBlock : Nat

section Requests
variable {k : Nat}

/-- The number of the entry in the indirect block. -/
def Request.entry (q : Request k) : Nat := q.fileBlock - 12

/-- The block is among the direct ones and those of the single-indirect block. -/
def Request.Supported (sb : Superblock) (q : Request k) : Prop := q.fileBlock < 12 + sb.nindir.toNat

/-- The sector where the indirect block begins. -/
def Request.sector (sb : Superblock) (q : Request k) : Nat := q.inode.ib0.toNat * 2 ^ sb.fsbtodb.toNat

/-- The indirect block is in the partition. -/
def Request.OnDisk (d : Partition σ) (sb : Superblock) (q : Request k) : Prop :=
  512 * q.sector sb + sb.bsize.toNat ≤ 512 * d.partLength.toNat

/-- A pointer on the disk. -/
def pointerAt (d : Partition σ) (pos k : Nat) : BitVec (8 * k) := numberAt (fun i => d.bytes i.toNat) pos k

/-- The entry lies in the part that is loaded. -/
structure Window.Has (k : Nat) (w : Window) (entry : Nat) : Prop where
  loaded : w.mapblock ≠ -1
  first : w.mapblockOffset.toInt ≤ entry
  last : k * (entry - w.mapblockOffset.toInt) + k ≤ w.mapblockBsize.toInt

/-- A request is answered right: with the pointer in the inode, or with the one in the indirect
block, out of the part that is loaded. If nothing was read, this is reported. -/
inductive Right (d : Partition σ) (sb : Superblock) (q : Request k) : BitVec (8 * k) × State σ → Prop where
  | direct {s : State σ} (direct : q.fileBlock < 12) : Right d sb q (q.inode.db q.fileBlock, s)
  | entry {pointer : BitVec (8 * k)} {s : State σ} (indirect : 12 ≤ q.fileBlock) (mapblock : s.window.mapblock = q.inode.bnum sb)
      (has : s.window.Has k q.entry) (stored : q.OnDisk d sb → pointer = pointerAt d (512 * q.sector sb + k * q.entry) k) :
          Right d sb q (pointer, s)
  | failed {s : State σ} (indirect : 12 ≤ q.fileBlock) (errnum : s.io.errnum = .fsysCorrupt) (faulty : q.OnDisk d sb → Faulty d) :
      Right d sb q (-1, s)

/-- The place of entries of `k` bytes, where bytes are counted by `sizeof (int)`, is theirs. -/
def Placed (k : Nat) (offset : Word) : Prop := k = 4 ∨ offset = 0

/-- What a request needs of the map. If the map is loaded again, the part that is read has to be
in the partition; otherwise the entry has to be in the part that was loaded before. In both
cases it has to be at its place. -/
def Meets (d : Partition σ) (sb : Superblock) (q : Request k) (w : Window) : Prop :=
  12 ≤ q.fileBlock →
    if w.Reloads (q.inode.bnum sb) then
      q.OnDisk d sb → Placed k (part sb (.ofNat 32 q.fileBlock)).1 ∧
        512 * q.sector sb + 4 * (part sb (.ofNat 32 q.fileBlock)).1.toNat + (part sb (.ofNat 32 q.fileBlock)).2.toNat ≤
          512 * d.partLength.toNat
    else w.Has k q.entry ∧ (q.OnDisk d sb → Placed k w.mapblockOffset)

/-- The request is made. -/
def Request.made (d : Partition σ) (sb : Superblock) (q : Request k) (s : State σ) : BitVec (8 * k) × State σ :=
  mapBlock d sb q.inode (.ofNat 32 q.fileBlock) s

/-- All requests of a session are answered right. -/
def AllRight (blockMap : Inode k → Word → State σ → BitVec (8 * k) × State σ) (d : Partition σ) (sb : Superblock) :
    List (Request k) → State σ → Prop :=
  Along (fun q s => (blockMap q.inode (.ofNat 32 q.fileBlock) s).2) fun q s => Right d sb q (blockMap q.inode (.ofNat 32 q.fileBlock) s)

/-- All requests of a session find what they need. -/
def AllMeet (blockMap : Inode k → Word → State σ → BitVec (8 * k) × State σ) (d : Partition σ) (sb : Superblock) :
    List (Request k) → State σ → Prop :=
  Along (fun q s => (blockMap q.inode (.ofNat 32 q.fileBlock) s).2) fun q s => Meets d sb q s.window

end Requests

/-! ## Numbers -/

section Numbers
variable {mem mem' : Int → Byte} {i i' : Int} {k : Nat}

theorem numberAt_congr (h : ∀ j < k, mem (i + j) = mem' (i' + j)) : numberAt mem i k = numberAt mem' i' k := by
  induction k generalizing i i' with
  | zero => rfl
  | succ k ih =>
    have hrest : numberAt mem (i + 1) k = numberAt mem' (i' + 1) k := by
      apply ih
      intro j hj
      have hbyte := h (j + 1) (Nat.succ_lt_succ hj)
      push_cast at hbyte
      rw [Int.add_assoc, Int.add_assoc, Int.add_comm 1, hbyte]
    have hfirst := h 0 (Nat.succ_pos k)
    rw [Int.natCast_zero, Int.add_zero, Int.add_zero] at hfirst
    rw [numberAt, numberAt, hrest, hfirst]

/-- The lowest byte is the first one. -/
theorem numberAt_low : (numberAt mem i (k + 1)).setWidth 8 = mem i := by
  rw [numberAt]
  apply BitVec.eq_of_getLsbD_eq
  intro j hj
  rw [BitVec.getLsbD_setWidth, BitVec.getLsbD_append]
  simp only [hj, decide_true, Bool.true_and, if_true]

end Numbers

section Places
variable {k : Nat} {sb : Superblock} {q : Request k}

theorem slt_ndaddr {n : Nat} (hn : n < 2 ^ 31) : (BitVec.ofNat 32 n).slt ndaddr = decide (n < 12) := by
  rw [BitVec.slt_eq_decide, ofNat_toInt_small hn]
  exact decide_eq_decide.2 Int.ofNat_lt

/-- Block pointers are 4 bytes of FFS, or 8 of UFS2. -/
theorem Superblock.Sound.nindir_le (hsb : sb.Sound k) (hk : 4 ≤ k) : 4 * sb.nindir.toNat + 8192 < 2 ^ 31 :=
  Nat.lt_of_le_of_lt (Nat.add_le_add_right (hsb.bsize ▸ Nat.mul_le_mul_right _ hk) _) hsb.small

theorem Request.fileBlock_small (hsb : sb.Sound k) (hk : 4 ≤ k) (hq : q.Supported sb) : q.fileBlock < 2 ^ 31 := by
  have hnindir := hsb.nindir_le hk
  unfold Supported at hq
  omega

theorem Request.entry_lt (hq : q.Supported sb) (hindirect : 12 ≤ q.fileBlock) : q.entry < sb.nindir.toNat := by
  unfold Supported at hq
  unfold entry
  omega

theorem entryOf_eq (hsb : sb.Sound k) (hk : 4 ≤ k) (hq : q.Supported sb) (hindirect : 12 ≤ q.fileBlock) :
    entryOf sb (.ofNat 32 q.fileBlock) = .ofNat 32 q.entry := by
  have hnindir := hsb.nindir_le hk
  have hlt := q.entry_lt hq hindirect
  have hsub : BitVec.ofNat 32 q.fileBlock - ndaddr = .ofNat 32 q.entry := ofNat_sub (w := 32) hindirect
  rw [entryOf, hsub]
  apply BitVec.eq_of_toInt_eq
  rw [BitVec.toInt_srem, ofNat_toInt_small (by omega), BitVec.toInt_eq_toNat_of_lt (by omega)]
  exact Int.tmod_eq_of_lt (Int.natCast_nonneg _) (Int.ofNat_lt.2 hlt)

theorem Request.bnum_eq (hk : 4 ≤ k) : q.inode.bnum sb = .ofNat 32 (q.sector sb) := by
  have hdvd : 2 ^ 32 ∣ 2 ^ (8 * k) := Nat.pow_dvd_pow 2 (by omega)
  apply BitVec.eq_of_toNat_eq
  rw [Inode.bnum, BitVec.toNat_setWidth, BitVec.toNat_shiftLeft, Nat.mod_mod_of_dvd _ hdvd, Nat.shiftLeft_eq, BitVec.toNat_ofNat]
  rfl

/-- The first entry that is loaded for entry `n`. -/
def startOf (sb : Superblock) (n : Nat) : Nat :=
  if sb.bsize.toNat ≤ 8192 then 0 else if sb.bsize.toNat < n + 8192 then (sb.bsize.toNat - 8192) / 4 else n

/-- How many bytes are loaded. -/
def lengthOf (sb : Superblock) : Nat := min sb.bsize.toNat 8192

theorem part_eq (hsb : sb.Sound k) (hk : 4 ≤ k) (hq : q.Supported sb) (hindirect : 12 ≤ q.fileBlock) :
    part sb (.ofNat 32 q.fileBlock) = (.ofNat 32 (startOf sb q.entry), .ofNat 32 (lengthOf sb)) := by
  have hsmall := hsb.small
  have hnindir := hsb.nindir_le hk
  have hlt := q.entry_lt hq hindirect
  have hbsize : sb.bsize.toInt = sb.bsize.toNat := BitVec.toInt_eq_toNat_of_lt (by omega)
  have hbig : mapbufLen.slt sb.bsize = decide (8192 < sb.bsize.toNat) := by
    rw [BitVec.slt_eq_decide, hbsize]
    exact decide_eq_decide.2 Int.ofNat_lt
  have hadd : BitVec.ofNat 32 q.entry + mapbufLen = .ofNat 32 (q.entry + 8192) := (BitVec.ofNat_add q.entry 8192).symm
  have hover : sb.bsize.slt (.ofNat 32 q.entry + mapbufLen) = decide (sb.bsize.toNat < q.entry + 8192) := by
    rw [hadd, BitVec.slt_eq_decide, hbsize, ofNat_toInt_small (by omega)]
    exact decide_eq_decide.2 Int.ofNat_lt
  rw [part, entryOf_eq hsb hk hq hindirect, hbig, hover]
  simp only [decide_eq_true_iff, startOf, lengthOf]
  by_cases hle : sb.bsize.toNat ≤ 8192
  · rw [if_neg (Nat.not_lt.2 hle), if_pos hle, Nat.min_eq_left hle, BitVec.ofNat_toNat, BitVec.setWidth_eq]
    rfl
  · rw [if_pos (Nat.lt_of_not_le hle), if_neg hle, Nat.min_eq_right (Nat.le_of_not_le hle)]
    have hclamp : (sb.bsize - mapbufLen) / 4 = .ofNat 32 ((sb.bsize.toNat - 8192) / 4) := by
      apply BitVec.eq_of_toNat_eq
      rw [BitVec.toNat_udiv, BitVec.toNat_sub_of_le (Nat.le_of_not_le hle), ofNat_toNat_small (by omega)]
      rfl
    rw [hclamp]
    split <;> rfl

/-- The entry is in the part that is loaded for it. -/
theorem startOf_has (hsb : sb.Sound k) (hk : k = 4 ∨ k = 8) (hq : q.Supported sb) (hindirect : 12 ≤ q.fileBlock) :
    startOf sb q.entry ≤ q.entry ∧ k * (q.entry - startOf sb q.entry) + k ≤ lengthOf sb := by
  have hlt := q.entry_lt hq hindirect
  have hbsize := hsb.bsize
  unfold startOf lengthOf
  obtain rfl | rfl := hk <;> split <;> (try split) <;> omega

end Places

/-! ## The map -/

/-- What is in the map is what is on the disk. -/
structure Holds (d : Partition σ) (sb : Superblock) (s : State σ) (start : Nat) : Prop where
  startsAt : ∃ entry, entry < sb.nindir.toNat ∧ startOf sb entry = start
  mapblockOffset : s.window.mapblockOffset = .ofNat 32 start
  mapblockBsize : s.window.mapblockBsize = .ofNat 32 (lengthOf sb)
  bytes : ∀ i < lengthOf sb, s.mapbuf i = d.bytes (512 * s.window.mapblock.toNat + 4 * start + i)

/-- The map is empty, or it was loaded for some entry. -/
def Coherent (d : Partition σ) (sb : Superblock) (s : State σ) : Prop := s.window.mapblock = -1 ∨ ∃ start, Holds d sb s start

/-- What loading the map comes to. -/
inductive Loading {k : Nat} (d : Partition σ) (sb : Superblock) (q : Request k) : Bool × State σ → Prop where
  | loaded {s : State σ} (mapblock : s.window.mapblock = q.inode.bnum sb) (positive : s.window.mapblock ≠ -1)
    (holds : Holds d sb s (startOf sb q.entry)) :
      Loading d sb q (true, s)
  | failed {s : State σ} (errnum : s.io.errnum = .fsysCorrupt) (mapblock : s.window.mapblock = -1)
      (faulty : 512 * q.sector sb + 4 * startOf sb q.entry + lengthOf sb ≤ 512 * d.partLength.toNat → Faulty d) : Loading d sb q (false, s)

section Map
variable {k : Nat} {d : Partition σ} {sb : Superblock} {q : Request k} {s : State σ} {start entry : Nat}

theorem startOf_le (hsb : sb.Sound k) (hk : k = 4 ∨ k = 8) (hlt : entry < sb.nindir.toNat) :
    4 * startOf sb entry + lengthOf sb < 2 ^ 31 := by
  have hsmall := hsb.small
  have hbsize := hsb.bsize
  unfold startOf lengthOf
  obtain rfl | rfl := hk <;> split <;> (try split) <;> omega

variable (d) in
theorem load_loading (hsb : sb.Sound k) (hk : k = 4 ∨ k = 8) (hq : q.Supported sb) (hindirect : 12 ≤ q.fileBlock) (s : State σ) :
    Loading d sb q (load d sb (q.inode.bnum sb) (.ofNat 32 q.fileBlock) s) := by
  have hk' : 4 ≤ k := by omega
  have hlt := q.entry_lt hq hindirect
  have hsmall := startOf_le hsb hk hlt
  have hpos : 0 < lengthOf sb := by
    have hbsize := hsb.bsize
    unfold lengthOf
    obtain rfl | rfl := hk <;> omega
  have hoffset : BitVec.ofNat 32 (startOf sb q.entry) * 4 = .ofNat 32 (4 * startOf sb q.entry) := by
    rw [Nat.mul_comm, BitVec.ofNat_mul]
    rfl
  simp only [load, part_eq hsb hk' hq hindirect, hoffset]
  generalize hread : devread d _ _ _ _ s.io = read
  obtain ⟨_ | _, buf, io⟩ := read
  · apply Loading.failed rfl rfl
    intro hin
    have hdelivers := devread_read (d := d) (q.sector sb) _ _ hpos hsmall hin (fun i => s.mapbuf i) s.io
    rw [← q.bnum_eq hk', hread] at hdelivers
    cases hdelivers with
    | failed lost => exact lost.2
  · have hbytes := devread_bytes hread
    rw [ofNat_toNat_small (by omega), ofNat_toNat_small (by omega)] at hbytes
    refine .loaded rfl (fun hnone => ?_) ⟨⟨_, hlt, rfl⟩, rfl, rfl, fun i hi => ?_⟩
    · have hnone : q.inode.bnum sb = -1 := hnone
      rw [devread, if_pos (.inl (by rw [hnone]; decide))] at hread
      cases hread
    · show (if (i : Int) < 0 then s.mapbuf i else buf (i : Int).toNat) = _
      rw [if_neg (Int.not_lt.2 (Int.natCast_nonneg i)), Int.toNat_natCast]
      exact hbytes i hi

theorem Holds.small (h : Holds d sb s start) (hsb : sb.Sound k) (hk : k = 4 ∨ k = 8) : 4 * start + lengthOf sb < 2 ^ 31 := by
  obtain ⟨entry, hlt, rfl⟩ := h.startsAt
  exact startOf_le hsb hk hlt

theorem Holds.has_iff (h : Holds d sb s start) (hsb : sb.Sound k) (hk : k = 4 ∨ k = 8) (hloaded : s.window.mapblock ≠ -1) (n : Nat) :
    s.window.Has k n ↔ start ≤ n ∧ k * (n - start) + k ≤ lengthOf sb := by
  have hsmall := h.small hsb hk
  have hoffset : s.window.mapblockOffset.toInt = start := by rw [h.mapblockOffset, ofNat_toInt_small (by omega)]
  have hbsize : s.window.mapblockBsize.toInt = lengthOf sb := by rw [h.mapblockBsize, ofNat_toInt_small (by omega)]
  constructor
  · rintro ⟨-, hfirst, hlast⟩
    rw [hoffset] at hfirst hlast
    rw [hbsize] at hlast
    have hle : start ≤ n := Int.ofNat_le.1 hfirst
    refine ⟨hle, Int.ofNat_le.1 ?_⟩
    push_cast [hle]
    exact hlast
  · rintro ⟨hle, hlast⟩
    refine ⟨hloaded, by rw [hoffset]; exact Int.ofNat_le.2 hle, ?_⟩
    have hlast := Int.ofNat_le.2 hlast
    push_cast [hle] at hlast
    rw [hoffset, hbsize]
    exact hlast

/-- The entry of the map, by the place of its bytes on the disk. -/
theorem Holds.entry_eq (h : Holds d sb s start) (hsb : sb.Sound k) (hk : k = 4 ∨ k = 8) (hq : q.Supported sb) (hindirect : 12 ≤ q.fileBlock)
    (hfirst : start ≤ q.entry) (hlast : k * (q.entry - start) + k ≤ lengthOf sb) :
    s.entry sb (.ofNat 32 q.fileBlock) =
      pointerAt d (512 * s.window.mapblock.toNat + 4 * start + k * (q.entry - start)) k := by
  have hk' : 4 ≤ k := by omega
  have hlt := q.entry_lt hq hindirect
  have hnindir := hsb.nindir_le hk'
  rw [State.entry, entryOf_eq hsb hk' hq hindirect, h.mapblockOffset, ofNat_sub hfirst, ofNat_toInt_small (by omega)]
  apply numberAt_congr
  intro j hj
  have hbyte := h.bytes (k * (q.entry - start) + j) (by omega)
  push_cast at hbyte
  rw [← Nat.add_assoc] at hbyte
  rw [hbyte]
  show _ = d.bytes (Int.toNat _)
  congr 1

/-- The place of an entry in the map is its place in the block, if bytes are counted right or
the map begins with the block. -/
theorem placed_iff (hk : k = 4 ∨ k = 8) {o n : Nat} (ho : o < 2 ^ 31) (hle : o ≤ n) :
    Placed k (.ofNat 32 o) ↔ 4 * o + k * (n - o) = k * n := by
  have hzero : BitVec.ofNat 32 o = 0 ↔ o = 0 := by
    constructor
    · intro h
      have hvalue := congrArg BitVec.toNat h
      rw [ofNat_toNat_small ho] at hvalue
      exact hvalue
    · rintro rfl
      rfl
  unfold Placed
  rw [hzero]
  obtain rfl | rfl := hk <;> omega

end Map

/-! ## One request -/

section Made
variable {k : Nat} {d : Partition σ} {sb : Superblock} {q : Request k} {s : State σ}

theorem made_direct (hsb : sb.Sound k) (hk : 4 ≤ k) (hq : q.Supported sb) (hdirect : q.fileBlock < 12) :
    q.made d sb s = (q.inode.db q.fileBlock, s) := by
  have hsmall := q.fileBlock_small hsb hk hq
  rw [Request.made, mapBlock, slt_ndaddr hsmall, if_pos (decide_eq_true hdirect), ofNat_toNat_small hsmall]

theorem made_indirect (hsb : sb.Sound k) (hk : 4 ≤ k) (hq : q.Supported sb) (hindirect : 12 ≤ q.fileBlock) :
    q.made d sb s =
      if s.window.Reloads (q.inode.bnum sb) then
        match load d sb (q.inode.bnum sb) (.ofNat 32 q.fileBlock) s with
        | (false, s) => (-1, s)
        | (true, s) => (s.entry sb (.ofNat 32 q.fileBlock), s)
      else (s.entry sb (.ofNat 32 q.fileBlock), s) := by
  have hdirect : ¬ decide (q.fileBlock < 12) = true := by
    rw [decide_eq_true_iff]
    omega
  rw [Request.made, mapBlock, slt_ndaddr (q.fileBlock_small hsb hk hq)]
  exact if_neg hdirect

theorem made_coherent (hsb : sb.Sound k) (hk : k = 4 ∨ k = 8) (hq : q.Supported sb) (hs : Coherent d sb s) :
    Coherent d sb (q.made d sb s).2 := by
  have hk' : 4 ≤ k := by omega
  obtain hdirect | hindirect := Nat.lt_or_ge q.fileBlock 12
  · rw [made_direct hsb hk' hq hdirect]
    exact hs
  rw [made_indirect hsb hk' hq hindirect]
  split
  · have hloading := load_loading d hsb hk hq hindirect s
    generalize load d sb _ _ s = loading at hloading
    cases hloading with
    | loaded mapblock positive holds => exact .inr ⟨_, holds⟩
    | failed errnum mapblock faulty => exact .inl mapblock
  · exact hs

theorem sector_eq (hsb : sb.Sound k) (hk : k = 4 ∨ k = 8) (hq : q.Supported sb) (hindirect : 12 ≤ q.fileBlock) (hdisk : q.OnDisk d sb) :
    q.sector sb < d.partLength.toNat ∧ (q.inode.bnum sb).toNat = q.sector sb := by
  have hlength := d.partLength.isLt
  have hbsize := hsb.bsize
  have hlt := q.entry_lt hq hindirect
  unfold Request.OnDisk at hdisk
  have hsector : q.sector sb < d.partLength.toNat := by obtain rfl | rfl := hk <;> omega
  refine ⟨hsector, ?_⟩
  rw [q.bnum_eq (by omega), BitVec.toNat_ofNat, Nat.mod_eq_of_lt (Nat.lt_trans hsector hlength)]

/-- What is taken from the map is right, if it is in the map and at its place. -/
theorem Holds.right {start : Nat} (h : Holds d sb s start) (hsb : sb.Sound k) (hk : k = 4 ∨ k = 8) (hq : q.Supported sb)
    (hindirect : 12 ≤ q.fileBlock) (hmapblock : s.window.mapblock = q.inode.bnum sb) (hhas : s.window.Has k q.entry)
    (hplaced : q.OnDisk d sb → Placed k s.window.mapblockOffset) : Right d sb q (s.entry sb (.ofNat 32 q.fileBlock), s) := by
  apply Right.entry hindirect hmapblock hhas
  intro hdisk
  have hsmall := h.small hsb hk
  obtain ⟨hfirst, hlast⟩ := (h.has_iff hsb hk hhas.loaded _).1 hhas
  have hplaced := hplaced hdisk
  rw [h.mapblockOffset, placed_iff hk (by omega) hfirst] at hplaced
  rw [h.entry_eq hsb hk hq hindirect hfirst hlast, hmapblock, (sector_eq hsb hk hq hindirect hdisk).2, Nat.add_assoc, hplaced]

/-- **A request that finds what it needs** is answered right. -/
theorem made_right (hsb : sb.Sound k) (hk : k = 4 ∨ k = 8) (hq : q.Supported sb) (hs : Coherent d sb s) (hmeets : Meets d sb q s.window) :
    Right d sb q (q.made d sb s) := by
  have hk' : 4 ≤ k := by omega
  obtain hdirect | hindirect := Nat.lt_or_ge q.fileBlock 12
  · rw [made_direct hsb hk' hq hdirect]
    exact .direct hdirect
  have hmeets := hmeets hindirect
  rw [made_indirect hsb hk' hq hindirect]
  split at hmeets
  next hreloads =>
    rw [part_eq hsb hk' hq hindirect] at hmeets
    have hsmall := startOf_le hsb hk (q.entry_lt hq hindirect)
    have hloading := load_loading d hsb hk hq hindirect s
    rw [if_pos hreloads]
    generalize load d sb _ _ s = loading at hloading
    cases hloading with
    | @loaded s' mapblock positive holds =>
      apply holds.right hsb hk hq hindirect mapblock
      · exact (holds.has_iff hsb hk positive _).2 (startOf_has hsb hk hq hindirect)
      · exact fun hdisk => holds.mapblockOffset ▸ (hmeets hdisk).1
    | failed errnum mapblock faulty =>
      apply Right.failed hindirect errnum
      intro hdisk
      have hin := (hmeets hdisk).2
      rw [ofNat_toNat_small (by omega), ofNat_toNat_small (by omega)] at hin
      exact faulty hin
  next hkeeps =>
    obtain ⟨hhas, hplaced⟩ := hmeets
    have hmapblock : s.window.mapblock = q.inode.bnum sb := by
      by_contra hne
      exact hkeeps (.inl (Ne.symm hne))
    obtain ⟨start, holds⟩ := hs.resolve_left hhas.loaded
    rw [if_neg hkeeps]
    exact holds.right hsb hk hq hindirect hmapblock hhas hplaced

end Made

/-! ## What a request needs -/

section Needs
variable {k : Nat} {d : Partition σ} {sb : Superblock} {q : Request k} {s : State σ} {start : Nat}

/-- The partition with other contents. -/
def onDisk (d : Partition σ) (bytes : Nat → Byte) : Partition σ := { d with bytes := bytes }

theorem Right.healthy {r : BitVec (8 * k) × State σ} (h : Right d sb q r) (hindirect : 12 ≤ q.fileBlock) (hdisk : q.OnDisk d sb)
    (hhealthy : ¬ Faulty d) :
    r.2.window.Has k q.entry ∧ r.1 = pointerAt d (512 * q.sector sb + k * q.entry) k := by
  cases h with
  | direct direct => exact absurd direct (Nat.not_lt.2 hindirect)
  | entry indirect mapblock has stored => exact ⟨has, stored hdisk⟩
  | failed indirect errnum faulty => exact absurd (faulty hdisk) hhealthy

/-- Two places on the disk may hold different pointers. -/
theorem pointerAt_inj {p p' : Nat} (hk : 0 < k) (h : ∀ bytes, pointerAt (onDisk d bytes) p k = pointerAt (onDisk d bytes) p' k) :
    p = p' := by
  obtain ⟨k, rfl⟩ := Nat.exists_eq_succ_of_ne_zero (Nat.pos_iff_ne_zero.1 hk)
  by_contra hne
  have hlow := congrArg (BitVec.setWidth 8) (h fun x => if x = p' then 1 else 0)
  rw [pointerAt, pointerAt, numberAt_low, numberAt_low] at hlow
  simp only [onDisk, Int.toNat_natCast, if_neg hne, if_true] at hlow
  exact absurd hlow (by decide)

/-- If the entry is right for all contents of the disk, it is at its place. -/
theorem placed_of_right {S : (Nat → Byte) → State σ} (hsb : sb.Sound k) (hk : k = 4 ∨ k = 8) (hq : q.Supported sb)
    (hindirect : 12 ≤ q.fileBlock)
    (hdisk : q.OnDisk d sb) (holds : ∀ bytes, Holds (onDisk d bytes) sb (S bytes) start)
    (hmapblock : ∀ bytes, (S bytes).window.mapblock = q.inode.bnum sb) (hhas : ∀ bytes, (S bytes).window.Has k q.entry)
    (hright : ∀ bytes, (S bytes).entry sb (.ofNat 32 q.fileBlock) = pointerAt (onDisk d bytes) (512 * q.sector sb + k * q.entry) k) :
    Placed k (.ofNat 32 (start)) := by
  have hzero := holds fun _ => 0
  have hsmall := hzero.small hsb hk
  obtain ⟨hfirst, hlast⟩ := (hzero.has_iff hsb hk (hhas _).loaded _).1 (hhas _)
  rw [placed_iff hk (by omega) hfirst]
  apply Nat.add_left_cancel (n := 512 * q.sector sb)
  apply pointerAt_inj (d := d) (k := k) (by omega)
  intro bytes
  rw [← hright bytes, (holds bytes).entry_eq hsb hk hq hindirect hfirst hlast, hmapblock bytes, (sector_eq hsb hk hq hindirect hdisk).2,
    Nat.add_assoc]

/-- On a drive that works the window does not depend on what is on the disk. -/
theorem load_window (hhealthy : ¬ Faulty d) (bytes bytes' : Nat → Byte) (bnum fileBlock : Word) (s s' : State σ) :
    (load (onDisk d bytes) sb bnum fileBlock s).2.window = (load (onDisk d bytes') sb bnum fileBlock s').2.window := by
  have hok : ∀ bytes (s : State σ), (load (onDisk d bytes) sb bnum fileBlock s).2.window =
      if bnum.toInt < 0 ∨ d.partLength ≤ bnum + ((part sb fileBlock).1 * 4 + (part sb fileBlock).2 - 1).sshiftRight 9 then ⟨-1, -1, -1⟩
      else ⟨bnum, (part sb fileBlock).1, (part sb fileBlock).2⟩ := by
    intro bytes s
    have hread : (devread (onDisk d bytes) bnum ((part sb fileBlock).1 * 4) (part sb fileBlock).2 (fun i => s.mapbuf i) s.io).1 =
        !decide (bnum.toInt < 0 ∨ d.partLength ≤ bnum + ((part sb fileBlock).1 * 4 + (part sb fileBlock).2 - 1).sshiftRight 9) :=
      devread_healthy hhealthy
    simp only [load]
    generalize devread _ _ _ _ _ s.io = read at hread
    obtain ⟨ok, buf, io⟩ := read
    have hread :
        ok = !decide (bnum.toInt < 0 ∨ d.partLength ≤ bnum + ((part sb fileBlock).1 * 4 + (part sb fileBlock).2 - 1).sshiftRight 9) := hread
    by_cases hout : bnum.toInt < 0 ∨ d.partLength ≤ bnum + ((part sb fileBlock).1 * 4 + (part sb fileBlock).2 - 1).sshiftRight 9
    · rw [if_pos hout, hread, decide_eq_true hout]
      rfl
    · rw [if_neg hout, hread, decide_eq_false hout]
      rfl
  rw [hok, hok]

theorem made_window (hsb : sb.Sound k) (hk : 4 ≤ k) (hq : q.Supported sb) (hhealthy : ¬ Faulty d) (bytes bytes' : Nat → Byte)
    {s s' : State σ}
    (hwindow : s.window = s'.window) : (q.made (onDisk d bytes) sb s).2.window = (q.made (onDisk d bytes') sb s').2.window := by
  obtain hdirect | hindirect := Nat.lt_or_ge q.fileBlock 12
  · rw [made_direct hsb hk hq hdirect, made_direct hsb hk hq hdirect]
    exact hwindow
  have hmade : ∀ bytes (s : State σ), (q.made (onDisk d bytes) sb s).2.window =
      if s.window.Reloads (q.inode.bnum sb) then (load (onDisk d bytes) sb (q.inode.bnum sb) (.ofNat 32 q.fileBlock) s).2.window else
        s.window := by
    intro bytes s
    rw [made_indirect hsb hk hq hindirect]
    split
    · generalize load _ sb _ _ s = loading
      obtain ⟨_ | _, s'⟩ := loading <;> rfl
    · rfl
  rw [hmade, hmade, hwindow, load_window hhealthy bytes bytes' _ _ s s']

/-- A part that ends behind the partition is not loaded. -/
theorem load_outside (hsb : sb.Sound k) (hk : k = 4 ∨ k = 8) (hq : q.Supported sb) (hindirect : 12 ≤ q.fileBlock)
    (hsector : q.sector sb < 2 ^ 31)
    (hout : 512 * d.partLength.toNat < 512 * q.sector sb + 4 * startOf sb q.entry + lengthOf sb) (s : State σ) :
    (load d sb (q.inode.bnum sb) (.ofNat 32 q.fileBlock) s).1 = false := by
  have hk' : 4 ≤ k := by omega
  have hsmall := startOf_le hsb hk (q.entry_lt hq hindirect)
  have hpos := (startOf_has hsb hk hq hindirect).2
  have hoffset : BitVec.ofNat 32 (startOf sb q.entry) * 4 = .ofNat 32 (4 * startOf sb q.entry) := by
    rw [Nat.mul_comm, BitVec.ofNat_mul]
    rfl
  have hread := devread_outside (by omega) hsmall hsector hout (fun i => s.mapbuf i) s.io
  simp only [load, part_eq hsb hk' hq hindirect, hoffset, q.bnum_eq hk']
  generalize devread d _ _ _ _ s.io = read at hread
  obtain ⟨ok, buf, io⟩ := read
  have hread : ok = false := hread
  rw [hread]
  rfl

/-- The states of sessions on disks with different contents. -/
structure Abreast (d : Partition σ) (sb : Superblock) (S : (Nat → Byte) → State σ) : Prop where
  coherent : ∀ bytes, Coherent (onDisk d bytes) sb (S bytes)
  window : ∀ bytes, (S bytes).window = (S d.bytes).window

/-- **A request that is answered right**, whatever is on the disk, finds what it needs. -/
theorem made_meets {S : (Nat → Byte) → State σ} (hsb : sb.Sound k) (hk : k = 4 ∨ k = 8) (hq : q.Supported sb)
    (hdisk : 12 ≤ q.fileBlock → q.OnDisk d sb)
    (hhealthy : ¬ Faulty d) (hS : Abreast d sb S) (hright : ∀ bytes, Right (onDisk d bytes) sb q (q.made (onDisk d bytes) sb (S bytes))) :
    Meets d sb q (S d.bytes).window := by
  have hk' : 4 ≤ k := by omega
  intro hindirect
  have hdisk := hdisk hindirect
  have hlt := q.entry_lt hq hindirect
  have hanswer := fun bytes => (hright bytes).healthy hindirect hdisk hhealthy
  simp only [made_indirect hsb hk' hq hindirect, hS.window] at hanswer
  split
  next hreloads =>
    have hsmall := startOf_le hsb hk hlt
    simp only [if_pos hreloads] at hanswer
    intro _
    rw [part_eq hsb hk' hq hindirect, ofNat_toNat_small (by omega), ofNat_toNat_small (by omega)]
    -- Whatever is on the disk, the map is loaded: nothing else is an answer.
    have hloaded : ∀ bytes, ∃ s', load (onDisk d bytes) sb (q.inode.bnum sb) (.ofNat 32 q.fileBlock) (S bytes) = (true, s') ∧
        s'.window.mapblock = q.inode.bnum sb ∧ Holds (onDisk d bytes) sb s' (startOf sb q.entry) ∧ s'.window.Has k q.entry ∧
        s'.entry sb (.ofNat 32 q.fileBlock) = pointerAt (onDisk d bytes) (512 * q.sector sb + k * q.entry) k := by
      intro bytes
      have hloading := load_loading (onDisk d bytes) hsb hk hq hindirect (S bytes)
      have hanswer := hanswer bytes
      generalize load (onDisk d bytes) sb _ _ (S bytes) = loading at hloading hanswer
      cases hloading with
      | @loaded s' mapblock positive holds => exact ⟨s', rfl, mapblock, holds, hanswer⟩
      | failed errnum mapblock faulty => exact absurd mapblock hanswer.1.loaded
    choose T hT hmapblock holds hhas hstored using hloaded
    refine ⟨placed_of_right hsb hk hq hindirect hdisk holds hmapblock hhas hstored, ?_⟩
    by_contra hout
    have hsector : q.sector sb < 2 ^ 31 := by
      have hlt := (sector_eq hsb hk hq hindirect hdisk).1
      have hlength : ¬ 2 ^ 31 < d.partLength.toNat := fun h => hhealthy (.inr h)
      omega
    have hfails := load_outside (d := onDisk d d.bytes) hsb hk hq hindirect hsector (Nat.lt_of_not_le hout) (S d.bytes)
    rw [hT] at hfails
    cases hfails
  next hkeeps =>
    simp only [if_neg hkeeps] at hanswer
    have hhas : ∀ bytes, (S bytes).window.Has k q.entry := fun bytes => (hanswer bytes).1
    have hmapblock : ∀ bytes, (S bytes).window.mapblock = q.inode.bnum sb := by
      intro bytes
      rw [hS.window]
      by_contra hne
      exact hkeeps (.inl (Ne.symm hne))
    obtain ⟨start, hholds⟩ := (hS.coherent d.bytes).resolve_left (hhas _).loaded
    have holds : ∀ bytes, Holds (onDisk d bytes) sb (S bytes) start := by
      intro bytes
      obtain ⟨start', hholds'⟩ := (hS.coherent bytes).resolve_left (hhas _).loaded
      have hsmall := hholds.small hsb hk
      have hsmall' := hholds'.small hsb hk
      have hoffset := hholds'.mapblockOffset
      rw [hS.window, hholds.mapblockOffset] at hoffset
      have hstart := congrArg BitVec.toNat hoffset
      rw [ofNat_toNat_small (by omega), ofNat_toNat_small (by omega)] at hstart
      exact hstart ▸ hholds'
    refine ⟨hhas _, fun _ => ?_⟩
    rw [hholds.mapblockOffset]
    exact placed_of_right hsb hk hq hindirect hdisk holds hmapblock hhas fun bytes => (hanswer bytes).2

/-- A block that the map can hold is in it as a whole. -/
theorem meets_of_small (hsb : sb.Sound k) (hk : k = 4 ∨ k = 8) (hq : q.Supported sb) (hdisk : 12 ≤ q.fileBlock → q.OnDisk d sb)
    (hsmall : sb.bsize.toNat ≤ 8192) (hs : Coherent d sb s) : Meets d sb q s.window := by
  intro hindirect
  have hstart : ∀ entry, startOf sb entry = 0 := fun entry => if_pos hsmall
  have hlength : lengthOf sb = sb.bsize.toNat := Nat.min_eq_left hsmall
  split
  · intro hdisk
    rw [part_eq hsb (by omega) hq hindirect, hstart, hlength]
    refine ⟨.inr rfl, ?_⟩
    rw [BitVec.ofNat_toNat, BitVec.setWidth_eq]
    exact hdisk
  next hkeeps =>
    have hmapblock : s.window.mapblock = q.inode.bnum sb := by
      by_contra hne
      exact hkeeps (.inl (Ne.symm hne))
    have hloaded : s.window.mapblock ≠ -1 := by
      obtain ⟨hsector, hbnum⟩ := sector_eq hsb hk hq hindirect (hdisk hindirect)
      have hlength := d.partLength.isLt
      intro hnone
      rw [← hmapblock, hnone] at hbnum
      have hvalue : 2 ^ 32 - 1 = q.sector sb := hbnum
      omega
    obtain ⟨start, holds⟩ := hs.resolve_left hloaded
    obtain ⟨entry, -, rfl⟩ := holds.startsAt
    have hhas := (holds.has_iff hsb hk hloaded q.entry).2 (by
      have hfirst := startOf_has hsb hk hq hindirect
      rw [hstart] at hfirst ⊢
      exact hfirst)
    exact ⟨hhas, fun _ => .inr (by rw [holds.mapblockOffset, hstart]; rfl)⟩

end Needs

/-! ## Sessions -/

section Sessions
variable {k : Nat} {d : Partition σ} {sb : Superblock} {s : State σ}

/-- What is known of a `block_map` and a session of requests from mounting on: it is answered
right if all requests find what they need; on a drive that works, and whatever is on the disk,
only then; and they find it if a block is not larger than the map. -/
structure Served (blockMap : Partition σ → Superblock → Inode k → Word → State σ → BitVec (8 * k) × State σ) (d : Partition σ)
    (sb : Superblock)
    (qs : List (Request k)) (s : State σ) : Prop where
  meets : AllMeet (blockMap d sb) d sb qs s → AllRight (blockMap d sb) d sb qs s
  exactly : ¬ Faulty d → (∀ q ∈ qs, 12 ≤ q.fileBlock → q.OnDisk d sb) →
    ((∀ bytes, AllRight (blockMap (onDisk d bytes) sb) (onDisk d bytes) sb qs s) ↔ AllMeet (blockMap d sb) d sb qs s)
  small : sb.bsize.toNat ≤ 8192 → (∀ q ∈ qs, 12 ≤ q.fileBlock → q.OnDisk d sb) → AllRight (blockMap d sb) d sb qs s

theorem served (hsb : sb.Sound k) (hk : k = 4 ∨ k = 8) {qs : List (Request k)} (hqs : ∀ q ∈ qs, q.Supported sb) (s : State σ) :
    Served mapBlock d sb qs s.mounted := by
  have hcoherent : ∀ d : Partition σ, Coherent d sb s.mounted := fun _ => .inl rfl
  have hmeets : ∀ d : Partition σ, AllMeet (mapBlock d sb) d sb qs s.mounted → AllRight (mapBlock d sb) d sb qs s.mounted := by
    intro d
    apply Along.imp (Coherent d sb) (fun hq hs => made_coherent hsb hk hq hs) _ hqs (hcoherent d)
    exact fun hq hs hmeets => made_right hsb hk hq hs hmeets
  refine ⟨hmeets d, fun hhealthy hdisk => ⟨fun hright => ?_, fun hall bytes => hmeets (onDisk d bytes) ?_⟩, fun hsmall hdisk => ?_⟩
  · have hboth : ∀ q ∈ qs, q.Supported sb ∧ (12 ≤ q.fileBlock → q.OnDisk d sb) := fun q hq => ⟨hqs q hq, hdisk q hq⟩
    apply Along.of_all d.bytes (Abreast d sb) _ _ hboth ⟨fun bytes => hcoherent _, fun _ => rfl⟩ hright
    · rintro q S ⟨hq, -⟩ ⟨hcoherent, hwindow⟩
      exact ⟨fun bytes => made_coherent hsb hk hq (hcoherent bytes),
        fun bytes => made_window hsb (by omega) hq hhealthy _ _ (hwindow bytes)⟩
    · exact fun ⟨hq, hdisk⟩ hS hright => made_meets hsb hk hq hdisk hhealthy hS hright
  · apply Along.related (fun s s' => s.window = s'.window) _ _ hqs rfl hall
    · exact fun hq hwindow => made_window hsb (by omega) hq hhealthy d.bytes bytes hwindow
    · intro q s s' hq hwindow hmeets
      rw [← hwindow]
      exact hmeets
  · have hboth : ∀ q ∈ qs, q.Supported sb ∧ (12 ≤ q.fileBlock → q.OnDisk d sb) := fun q hq => ⟨hqs q hq, hdisk q hq⟩
    apply Along.always (Coherent d sb) _ _ hboth (hcoherent d)
    · exact fun hq hs => made_coherent hsb hk hq.1 hs
    · exact fun hq hs => made_right hsb hk hq.1 hs (meets_of_small hsb hk hq.1 hq.2 hsmall hs)

/-- A block begins with the pointers 1 to 255, each of them the same byte all over. -/
def samplePartition : Partition Unit where
  partLength := 2880
  bytes := fun x => .ofNat 8 (x / 4 - 2047)
  rawread := fun dev _ _ _ => (none, dev)
  fault := ⟨.read, Disk.GrubError.read_ne_none⟩

def sampleState : State Unit := ⟨⟨0, 0, 0⟩, fun _ => 0, ⟨.none, ()⟩⟩

end Sessions

end TrustedGrub.Ffs
