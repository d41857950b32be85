import TrustedGrub.Ext2.Consistent
import TrustedGrub.Ext2.Passes

/-!
# Inodes and blocks of a file system in order

Where a file system is in order, `ext2fs_dir` finds an inode where the format has it, and
the block maps find a block of a file. Otherwise a read has failed.
-/

namespace TrustedGrub.Ext2
open Fips180 (Byte Word)
open Search (Placed)

variable {σ τ : Type} {fs : Fs σ} {fs' : Fs τ} {logical : Word} {eh eh' leaf : Node} {depth : Nat} {extents : List Extent}

/-! ## The root of a tree -/

/-- The words of `i_block`. What lies behind them is not a part of the inode. -/
def SameRoot (eh eh' : Node) : Prop := ∀ i < 15, eh' i = eh i

namespace SameRoot
variable (h : SameRoot eh eh')
include h

theorem ehMagic : ehMagic eh' = Ext2.ehMagic eh := by rw [Ext2.ehMagic, h 0 (by decide), Ext2.ehMagic]
theorem ehEntries : ehEntries eh' = Ext2.ehEntries eh := by rw [Ext2.ehEntries, h 0 (by decide), Ext2.ehEntries]
theorem ehDepth : ehDepth eh' = Ext2.ehDepth eh := by rw [Ext2.ehDepth, h 1 (by decide), Ext2.ehDepth]

theorem entry {i k : Nat} (hi : i < 4) (hk : k < 3) : eh' (3 * i + 3 + k) = eh (3 * i + 3 + k) := h _ (by omega)

theorem extentAt {e : Extent} {i : Nat} (hi : i < 4) (hat : e.At eh i) : e.At eh' i := by
  have h₀ := h.entry hi (show 0 < 3 by decide)
  have h₁ := h.entry hi (show 1 < 3 by decide)
  have h₂ := h.entry hi (show 2 < 3 by decide)
  constructor
  · simpa only [eeBlock, h₀] using hat.block
  · simpa only [eeLen, h₁] using hat.len
  · simpa only [eeStartHi, eeStartLo, h₁, h₂] using hat.start

theorem childAt {c : Child} {i : Nat} (hi : i < 4) (hat : c.At eh i) : c.At eh' i := by
  have h₀ := h.entry hi (show 0 < 3 by decide)
  have h₁ := h.entry hi (show 1 < 3 by decide)
  have h₂ := h.entry hi (show 2 < 3 by decide)
  constructor
  · simpa only [eiBlock, h₀] using hat.key
  · simpa only [eiLeafHi, eiLeafLo, h₁, h₂] using hat.leaf

/-- With no more entries than `i_block` has room for, a tree is one whatever lies behind. -/
theorem stored (hentries : Ext2.ehEntries eh ≤ 4) (hs : Stored fs depth eh extents) : Stored fs depth eh' extents := by
  cases hs with
  | leaf magic hdepth entries each sorted =>
    refine .leaf (h.ehMagic.trans magic) (h.ehDepth.trans hdepth) (h.ehEntries.trans entries) ?_ sorted
    exact fun i hi => h.extentAt (by omega) (each i hi)
  | index magic hdepth entries nonempty each sorted first below =>
    refine .index (h.ehMagic.trans magic) (h.ehDepth.trans hdepth) (h.ehEntries.trans entries) nonempty ?_ sorted first below
    exact fun i hi => h.childAt (by omega) (each i hi)

theorem placed {i x : Nat} (hentries : Ext2.ehEntries eh ≤ 4) (hp : Placed (fun i => (eiBlock eh i).toNat) (Ext2.ehEntries eh) x i) :
    Placed (fun i => (eiBlock eh' i).toNat) (Ext2.ehEntries eh') x i := by
  have hkey (j : Nat) (hj : j < 4) : eiBlock eh' j = eiBlock eh j := h.entry hj (show 0 < 3 by decide)
  rw [h.ehEntries]
  constructor
  · refine hp.reaches.imp_right fun ⟨hi, hreach⟩ => ⟨hi, ?_⟩
    rwa [hkey i (by omega)]
  · intro j hij hj
    rw [hkey j (by omega)]
    exact hp.last j hij hj

theorem leads (hentries : Ext2.ehEntries eh ≤ 4) (hl : Leads fs logical eh leaf) : ∃ leaf', Leads fs logical eh' leaf' := by
  cases hl with
  | leaf hdepth => exact ⟨eh', .leaf (h.ehDepth.trans hdepth)⟩
  | @index _ _ i hdepth hplaced near below =>
    have hi : i < 4 := by
      obtain rfl | ⟨hi, -⟩ := hplaced.reaches
      · decide
      · omega
    have h₁ := h.entry hi (show 1 < 3 by decide)
    have h₂ := h.entry hi (show 2 < 3 by decide)
    refine ⟨leaf, .index (fun hzero => hdepth (h.ehDepth.symm.trans hzero)) (h.placed hentries hplaced) ?_ ?_⟩
    · simpa only [eiLeafHi, h₂] using near
    · simpa only [eiLeafLo, h₁] using below

end SameRoot

/-! ## Trees do not depend on the device -/

theorem Stored.transfer (himage : fs'.image = fs.image) (h : Stored fs depth eh extents) : Stored fs' depth eh extents := by
  induction h with
  | leaf magic hdepth entries each sorted => exact .leaf magic hdepth entries each sorted
  | index magic hdepth entries nonempty each sorted first _ ih =>
    apply Stored.index magic hdepth entries nonempty each sorted first
    intro c hc ptr hptr
    rw [himage]
    exact ih c hc ptr hptr

theorem Leads.transfer (himage : fs'.image = fs.image) (h : Leads fs logical eh leaf) : Leads fs' logical eh leaf := by
  induction h with
  | leaf hdepth => exact .leaf hdepth
  | index hdepth placed near _ ih =>
    apply Leads.index hdepth placed near
    rwa [himage]

/-! ## Block maps -/

theorem ext4fsBlockMap_maps (hs : Stored fs depth fs.iBlock extents) (hleads : Leads fs logical fs.iBlock leaf) {e : Extent}
    (hcovering : covering extents logical.toNat = some e) {b : Word} (hstart : b.toNat = e.start + (logical.toNat - e.block))
    (hb : IsBlock b) (s : State σ) : ∃ fuel result, ext4fsBlockMap fs fuel s logical = some result ∧ Answered s b result := by
  obtain ⟨result, hresult, hanswer⟩ := ext4fsBlockMap_answer hs (Nat.lt_succ_self depth) s logical
  refine ⟨depth + 1, result, hresult, ?_⟩
  cases hanswer with
  | @reached leaf' own i s' leads hown hcov placed failures errnum =>
    obtain ⟨hat, hcovers⟩ := hown.covering_eq_some placed (hcov.trans hcovering)
    have hblock := (atLeaf_covers hat hcovers s').2 (hstart ▸ hb.2)
    unfold atLeaf at hblock ⊢
    split_ifs at hblock ⊢ with hfar hbehind
    · have hminus : s'.filelength.1.toInt = -1 := by rfl
      omega
    · have hminus : s'.corrupt.1.toInt = -1 := by rfl
      omega
    · have hword : eeStartLo leaf' i + logical - eeBlock leaf' i = b := by
        apply BitVec.eq_of_toInt_eq
        rw [hblock, ← hstart, BitVec.toInt_eq_toNat_of_lt]
        have hlt := hb.2
        omega
      rw [hword]
      exact .word failures errnum
  | far nowhere => exact absurd hleads (nowhere leaf)
  | failed failures => exact .failed failures

theorem solid_of_pointed {image : Word → Nat → Word} {ptr : Word} {path : List Nat} (h : Pointed image ptr path) :
    Solid image ptr path := by
  induction path generalizing ptr with
  | nil =>
    rintro rfl
    exact absurd h.2 (by decide)
  | cons i path ih => exact ⟨h.1.1, ih h.2⟩

theorem pointed_follow {image : Word → Nat → Word} {ptr : Word} {path : List Nat} (h : Pointed image ptr path) :
    IsBlock (follow image ptr path) := by
  induction path generalizing ptr with
  | nil => exact h
  | cons i path ih =>
    rw [follow_cons h.1.1]
    exact ih h.2

theorem pointed_keyClear {n : Nat} (s : State σ) (h : Pointed fs.image (fs.root n) (pathOf fs.addrPerBlock n).2) : fs.KeyClear s n := by
  intro hlevel _
  have hpath : (pathOf fs.addrPerBlock n).2 ≠ [] := by
    unfold pathOf at hlevel ⊢
    split_ifs at hlevel ⊢ with hdirect
    · simp only at hlevel
      omega
    all_goals exact List.cons_ne_nil _ _
  obtain ⟨i, path, hcons⟩ := List.exists_cons_of_ne_nil hpath
  rw [Fs.root, hlevel, hcons] at h
  rw [hcons]
  cases path with
  | nil =>
    rintro hminus
    exact absurd (hminus ▸ h.2.2) (by decide)
  | cons j path =>
    intro hminus
    exact absurd (hminus ▸ h.2.1.2) (by decide)

/-! ## Requests of `ext2fs_dir` -/

variable {v : Volume σ} {g : DirState σ} {t : Nat → Word} {n : Nat} {b : Word}

/-- The file of an inode, on the volume's device. -/
def Volume.inodeFs (v : Volume σ) (t : Nat → Word) : Fs σ where
  addrBits := v.super.blockSizeBits - 2
  addrBits_le := v.addrBits_le
  iBlock i := t (10 + i)
  image := v.image
  devread := v.devread

theorem fs_sameRoot (hinode : g.inode = t) : SameRoot (v.inodeFs t).iBlock (v.fs g).iBlock := by
  intro i hi
  show g.iBlock i = t (10 + i)
  rw [DirState.iBlock, if_pos (by omega), hinode]

/-- The block map does not look behind the inode. -/
theorem blockMap_sameRoot {f : Nat → Word} (h : SameRoot fs.iBlock f) (s : State σ) (n : Nat) :
    blockMap { fs with iBlock := f } s n = blockMap fs s n := by
  have hread (s : State σ) (fsblock : Word) (buffer : Buffer) :
      rdfsb { fs with iBlock := f } s fsblock buffer = rdfsb fs s fsblock buffer := rfl
  have hload2 (s : State σ) (bnum : Word) : load2 { fs with iBlock := f } s bnum = load2 fs s bnum := rfl
  have hload1 (s : State σ) {key : Nat} (hkey : key < 4) : load1 { fs with iBlock := f } s key = load1 fs s key := by
    unfold load1
    simp only [hread, ndirBlocks, h (12 + key - 1) (by omega)]
  have haddr : Fs.addrPerBlock { fs with iBlock := f } = fs.addrPerBlock := rfl
  have hsingle (n : Nat) : mapSingle { fs with iBlock := f } s n = mapSingle fs s n := by
    simp only [mapSingle, hload1 _ (show 1 < 4 by decide)]
  have hdouble (n : Nat) : mapDouble { fs with iBlock := f } s n = mapDouble fs s n := by
    simp only [mapDouble, hload1 _ (show 2 < 4 by decide), hload2, haddr]
  have htriple (n : Nat) : mapTriple { fs with iBlock := f } s n = mapTriple fs s n := by
    simp only [mapTriple, hload1 _ (show 3 < 4 by decide), hread, haddr]
  simp only [blockMap, hsingle, hdouble, htriple, haddr]
  by_cases hdirect : n < ndirBlocks
  · rw [if_pos hdirect, if_pos hdirect, h n (Nat.lt_trans hdirect (by decide))]
  · rw [if_neg hdirect, if_neg hdirect]

/-- The key of a buffer is that of a block of this file, if the file has its blocks behind pointers. -/
def MapReady (v : Volume σ) (t : Nat → Word) (s : State σ) : Prop := v.hasExtents t = false → Keyed (v.inodeFs t) s

theorem usesExtents_eq (hinode : g.inode = t) : usesExtents v g = v.hasExtents t := by
  subst hinode
  rfl

theorem blockAt_isBlock (h : BlockAt v.toImage t n b) : IsBlock b := by
  cases h with
  | pointers _ _ pointed walk => exact walk ▸ pointed_follow pointed
  | extents _ _ _ _ _ _ isBlock => exact isBlock

theorem file_addrBits : (v.file t).addrBits = v.super.blockSizeBits - 2 := by
  have h := v.usable.blockSizeBits_le
  exact Nat.min_eq_left (by omega)

theorem mapBlock_found (hinode : g.inode = t) (hblock : BlockAt v.toImage t n b) (hready : MapReady v t g.toState) (hn : n < 2 ^ 31) :
    ∃ fuel word s, mapBlock v fuel g (BitVec.ofNat 32 n) = some (word, { g with toState := s }) ∧ Answered g.toState b (word, s) ∧
      (s.failures = g.failures → MapReady v t s) := by
  have hnat : (BitVec.ofNat 32 n).toNat = n := by
    rw [BitVec.toNat_ofNat]
    omega
  have huses : usesExtents v g = v.hasExtents t := usesExtents_eq hinode
  have hroot := @fs_sameRoot _ v g t hinode
  unfold mapBlock
  cases hblock with
  | @extents depth extents e leaf inTree stored entries leads covering start isBlock =>
    have hstored : Stored (v.fs g) depth (v.fs g).iBlock extents := hroot.stored entries (stored.transfer (by rfl))
    have hleads : Leads (v.fs g) (BitVec.ofNat 32 n) (v.inodeFs t).iBlock leaf := leads.transfer (by rfl)
    obtain ⟨leaf', hleads⟩ := hroot.leads entries hleads
    rw [← hnat] at covering start
    obtain ⟨fuel, result, hresult, hanswer⟩ := ext4fsBlockMap_maps hstored hleads covering start isBlock g.toState
    refine ⟨fuel, result.1, result.2, ?_, hanswer, ?_⟩
    · rw [if_pos (huses.trans inTree)]
      exact Option.bind_eq_some_iff.2 ⟨result, hresult, rfl⟩
    · intro _ hplain
      rw [inTree] at hplain
      cases hplain
  | pointers plain inReach pointed walk =>
    have hfs : blockMap (v.fs g) g.toState n = blockMap (v.inodeFs t) g.toState n := blockMap_sameRoot hroot g.toState n
    have haddr : (v.inodeFs t).addrPerBlock = (v.file t).addrPerBlock := by
      rw [Fs.addrPerBlock, Fs.addrPerBlock, file_addrBits]
      rfl
    have hpointed : Pointed (v.inodeFs t).image ((v.inodeFs t).root n) (pathOf (v.inodeFs t).addrPerBlock n).2 := by
      rw [Fs.root, haddr]
      exact pointed
    have hwalk : Ext2.walk (v.inodeFs t) n = b := by
      rw [Ext2.walk, Fs.root, haddr]
      exact walk
    obtain ⟨hanswer, hkeyed⟩ := @blockMap_spec _ _ _ n (hready plain)
    have hnonneg : ¬ (BitVec.ofNat 32 n).toInt < 0 := by
      rw [BitVec.toInt_eq_toNat_of_lt (by omega), hnat]
      omega
    refine ⟨0, (blockMap (v.inodeFs t) g.toState n).1, (blockMap (v.inodeFs t) g.toState n).2, ?_, ?_, ?_⟩
    · rw [if_neg (by simp [huses, plain]), if_neg hnonneg, hnat, hfs]
    · exact hwalk ▸ hanswer (solid_of_pointed hpointed) (pointed_keyClear _ hpointed)
    · exact fun hsame _ => hkeyed (.inl hsame)

/-! ## The look-up of an inode -/

variable {inUse : Word → Prop} {node : Word → Resolution.Node Word Byte} {ino : Word}

theorem log2_two_pow : ∀ k < 32, log2 (2 ^ k) = k := by decide

theorem toNat_and_mask (x : Word) {k : Nat} (hk : k < 32) : (x &&& BitVec.ofNat 32 (2 ^ k - 1)).toNat = x.toNat % 2 ^ k := by
  have hlt : 2 ^ k < 2 ^ 32 := Nat.pow_lt_pow_right (by decide) hk
  rw [BitVec.toNat_and, BitVec.toNat_ofNat, Nat.mod_eq_of_lt (by omega), Nat.and_two_pow_sub_one_eq_mod]

theorem toNat_sshiftRight (x : Word) (k : Nat) (hx : x.toNat < 2 ^ 31) : (x.sshiftRight k).toNat = x.toNat / 2 ^ k := by
  have hmsb : x.msb = false := by
    rw [BitVec.msb_eq_false_iff_two_mul_lt]
    omega
  rw [BitVec.sshiftRight_eq_of_msb_false hmsb, BitVec.toNat_ushiftRight, Nat.shiftRight_eq_div_pow]

theorem toNat_sub_one (hino : ino ≠ 0) : (ino - 1).toNat = ino.toNat - 1 := by
  have hpos : ino.toNat ≠ 0 := fun h => hino (BitVec.eq_of_toNat_eq h)
  have hlt := ino.isLt
  have hone : (1 : Word).toNat = 1 := rfl
  rw [BitVec.toNat_sub, hone]
  omega

namespace Consistent
variable {d : Image σ} (hc : Consistent d inUse node)
include hc

/-- A number of things to a block is a power of two. -/
theorem descPerBlock : ∃ k < 32, d.super.descPerBlock = 2 ^ k := by
  obtain ⟨k, hk, hsize⟩ := hc.descSize
  have hbits := hc.blockSize.2
  refine ⟨d.super.blockSizeBits - k, by omega, ?_⟩
  rw [Superblock.descPerBlock, hsize, Superblock.blockSize, Nat.pow_div hk (by decide)]

theorem inodesPerBlock_pow : ∃ k < 32, d.super.inodesPerBlock = 2 ^ k := by
  obtain ⟨k, hk, hsize⟩ := hc.inodeSize
  have hbits := hc.blockSize.2
  refine ⟨d.super.blockSizeBits - k, by omega, ?_⟩
  rw [Superblock.inodesPerBlock, hsize, Superblock.blockSize, Nat.pow_div hk (by decide)]

theorem groupId_toNat (hino : inUse ino) : ((ino - 1) / d.super.sInodesPerGroup).toNat = d.super.groupOf ino := by
  rw [BitVec.toNat_udiv, toNat_sub_one (hc.groups ino hino).1]
  rfl

/-- The descriptor is read from where it is. -/
theorem groupDesc_eq (hino : inUse ino) :
    1 + ((ino - 1) / d.super.sInodesPerGroup).sshiftRight (log2 d.super.descPerBlock) + d.super.sFirstDataBlock =
      d.super.descBlock (d.super.groupOf ino) := by
  obtain ⟨k, hk, hper⟩ := hc.descPerBlock
  have hgroup := hc.groupId_toNat hino
  have hlt := (hc.groups ino hino).2
  have hone : (1 : Word).toNat = 1 := rfl
  apply BitVec.eq_of_toNat_eq
  rw [Superblock.descBlock, hper, log2_two_pow k hk, BitVec.toNat_add, BitVec.toNat_add, toNat_sshiftRight _ _ (hgroup ▸ hlt), hgroup,
    BitVec.toNat_ofNat, hone]
  omega

theorem desc_eq (hino : inUse ino) :
    ((ino - 1) / d.super.sInodesPerGroup &&& BitVec.ofNat 32 (d.super.descPerBlock - 1)).toNat * d.super.descSize =
      d.super.descOffset (d.super.groupOf ino) := by
  obtain ⟨k, hk, hper⟩ := hc.descPerBlock
  rw [Superblock.descOffset, hper, toNat_and_mask _ hk, hc.groupId_toNat hino]

theorem inoBlk_eq (hino : inUse ino) :
    d.inodeTable (d.super.groupOf ino) + ((ino - 1) % d.super.sInodesPerGroup) >>> log2 d.super.inodesPerBlock = d.inodeBlock ino := by
  obtain ⟨k, hk, hper⟩ := hc.inodesPerBlock_pow
  rw [Image.inodeBlock, hper, log2_two_pow k hk]
  congr 1
  have hindex : ((ino - 1) % d.super.sInodesPerGroup).toNat = d.super.indexOf ino := by
    rw [BitVec.toNat_umod, toNat_sub_one (hc.groups ino hino).1]
    rfl
  have hdiv := Nat.div_le_self (d.super.indexOf ino) (2 ^ k)
  apply BitVec.eq_of_toNat_eq
  rw [BitVec.toNat_ushiftRight, Nat.shiftRight_eq_div_pow, hindex, BitVec.toNat_ofNat, Nat.mod_eq_of_lt (by omega)]

theorem rawInode_eq (hino : inUse ino) :
    ((ino - 1) &&& BitVec.ofNat 32 (d.super.inodesPerBlock - 1)).toNat * d.super.inodeSize =
      d.super.indexOf ino % d.super.inodesPerBlock * d.super.inodeSize := by
  obtain ⟨k, hk, hper⟩ := hc.inodesPerBlock_pow
  have hdvd := hc.inodesPerBlock
  rw [hper] at hdvd ⊢
  rw [toNat_and_mask _ hk, toNat_sub_one (hc.groups ino hino).1, Superblock.indexOf, Nat.mod_mod_of_dvd _ hdvd]

end Consistent

/-- An inode has been looked up. -/
structure Looked (v : Volume σ) (ino : Word) (g g' : DirState σ) : Prop where
  inode : g'.inode = v.inode ino
  mapblock1 : g'.mapblock1 = -1
  mapblock2 : g'.mapblock2 = -1
  failures : g'.failures = g.failures
  errnum : g'.errnum = g.errnum
  filepos : g'.filepos = g.filepos
  printPossibilities : g'.printPossibilities = g.printPossibilities
  measureKernel : g'.measureKernel = g.measureKernel

theorem lookupInode_found (hc : Consistent v.toImage inUse node) (hino : inUse ino)
    (hnarrow : v.super.hasIncompatFeature incompat64bit = false) (g : DirState σ) :
    ∃ returned g', lookupInode v g ino = (returned, g') ∧
      (returned = none ∧ Looked v ino g g' ∨ returned = some 0 ∧ g.failures < g'.failures ∧ g'.errnum ≠ .none) := by
  unfold lookupInode
  simp only [hc.groupDesc_eq hino, hc.desc_eq hino, hc.rawInode_eq hino, hnarrow, Bool.false_eq_true, false_and, if_false]
  cases hdesc : v.devread g.dev (v.super.descBlock (v.super.groupOf ino)) g.groupDesc with
  | mk outcome dev =>
    cases outcome with
    | some left =>
      simp only [DirState.rdGroupDesc, hdesc, Bool.not_false, if_true]
      exact ⟨_, _, rfl, .inr ⟨rfl, Nat.lt_succ_self _, (v.fault dev).2⟩⟩
    | none =>
      have hblock := hc.inoBlk_eq hino
      simp only [Image.inodeTable] at hblock
      simp only [DirState.rdGroupDesc, hdesc, Bool.not_true, Bool.false_eq_true, if_false, hblock]
      cases hinode : v.devread dev (v.inodeBlock ino) g.inode with
      | mk outcome dev' =>
        cases outcome with
        | some left =>
          simp only [DirState.rdInode, hinode, Bool.not_false, if_true]
          exact ⟨_, _, rfl, .inr ⟨rfl, Nat.lt_succ_self _, (v.fault dev').2⟩⟩
        | none =>
          simp only [DirState.rdInode, hinode, Bool.not_true, Bool.false_eq_true, if_false]
          refine ⟨_, _, rfl, .inl ⟨rfl, ?_⟩⟩
          constructor <;> rfl

end TrustedGrub.Ext2
