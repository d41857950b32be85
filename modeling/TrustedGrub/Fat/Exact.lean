import TrustedGrub.Fat.Chain

/-!
# What `fat_read` returns

The outer loop of `fat_read` goes through the clusters of a request, of which each is found
by steps along the chain. `fatRead_exact` is about any state that calls for any files lead
to, in whose course no load of the window has failed.
-/

namespace TrustedGrub.Fat
open Fips180 (Byte Word)
open Disk (GrubError)
open Memory (slice store)

variable {σ : Type} {vol : Volume σ} {s s' : State σ} {file : File vol} {k : Nat}

/-- What is read of a request for `len` bytes from a position on. -/
def File.available (file : File vol) (filepos len : Nat) : Nat := min len (file.size - filepos)

theorem clusterSize_pos (vol : Volume σ) : 0 < vol.clusterSize := Nat.two_pow_pos _

/-- The bytes of one cluster. -/
theorem slice_byteAt {c off z : Nat} (hc : c < file.clusters.length) (hz : off + z ≤ vol.clusterSize) :
    slice file.byteAt (c * vol.clusterSize + off) z = slice vol.disk (vol.clusterAddr file.clusters[c] + off) z := by
  rw [Memory.slice_eq_iff]
  intro i hi
  have hlt : off + i < vol.clusterSize := by omega
  have hdiv : (c * vol.clusterSize + off + i) / vol.clusterSize = c := by
    rw [Nat.add_assoc, Nat.mul_comm, Nat.mul_add_div (clusterSize_pos vol), Nat.div_eq_of_lt hlt, Nat.add_zero]
  have hmod : (c * vol.clusterSize + off + i) % vol.clusterSize = off + i := by
    rw [Nat.add_assoc, Nat.mul_comm, Nat.mul_add_mod, Nat.mod_eq_of_lt hlt]
  rw [File.byteAt, hdiv, hmod, List.getD_eq_getElem?_getD, List.getElem?_eq_getElem hc, Option.getD_some, Nat.add_assoc]

theorem clusterAddr_add (file : File vol) {c : Nat} (hc : c ∈ file.clusters) (off : Nat) :
    (vol.super.clusterSector c * Disk.sectorSize + off).toNat = vol.clusterAddr c + off := by
  have hinside := (file.inside c hc).1
  have hsector : 0 ≤ vol.super.clusterSector c := by
    have hdata := file.dataOffset_nonneg
    have hrest : (0 : Int) ≤ (c - 2) * 2 ^ (vol.super.clustsizeBits - vol.super.sectsizeBits) :=
      Int.mul_nonneg (by omega) (Int.le_of_lt (Int.pow_pos (by decide)))
    unfold Super.clusterSector
    omega
  have haddr : 0 ≤ vol.super.clusterSector c * Disk.sectorSize := Int.mul_nonneg hsector (Int.natCast_nonneg _)
  unfold Volume.clusterAddr
  omega

/-- What the outer loop comes to. -/
structure Ended (file : File vol) (len ret : Nat) (buf : Nat → Byte) (s : State σ) (r : Nat × (Nat → Byte) × State σ) : Prop where
  /-- The window and the position hold unless a load of the window has failed. -/
  held : r.2.2.lost = s.lost → Keyed vol r.2.2 ∧ r.2.2.fileCluster = s.fileCluster ∧ ∃ k, On file k r.2.2
  lost : s.lost ≤ r.2.2.lost
  failures : s.failures ≤ r.2.2.failures
  errnum : s.errnum ≠ .none → r.2.2.errnum ≠ .none
  exact : file.Clear s.filepos len →
    r.2.2.errnum = .none ∧ r.1 = ret + file.available s.filepos len ∧ r.2.2.filepos = s.filepos + file.available s.filepos len ∧
        slice r.2.1 ret (file.available s.filepos len) = slice file.byteAt s.filepos (file.available s.filepos len) ∧
        (∀ i < ret, r.2.1 i = buf i) ∨
      Broken s r.2.2

/-- The loop is at offset `off` of a cluster that it has not passed, or at its end. -/
structure Looping (file : File vol) (c off len : Nat) (s : State σ) : Prop where
  keyed : Keyed vol s
  on : ∃ k ≤ c, On file k s
  place : 0 < len → s.filepos = c * vol.clusterSize + off ∧ off < vol.clusterSize

theorem broken_or_clear (s : State σ) : s.errnum = .none ∨ Broken s s :=
  or_iff_not_imp_left.2 fun h => ⟨h, .inl h⟩

theorem readClusters_done {c off len ret ret' : Nat} {buf : Nat → Byte} (h : Looping file c off len s)
    (havail : file.Clear s.filepos len → file.available s.filepos len = 0) (hret : s.errnum = .none → ret' = ret) :
    Ended file len ret buf s (ret', buf, s) := by
  obtain ⟨k, -, hon⟩ := h.on
  constructor
  case held => exact fun _ => ⟨h.keyed, rfl, k, hon⟩
  case lost => exact Nat.le_refl _
  case failures => exact Nat.le_refl _
  case errnum => exact id
  case exact =>
    intro hclear
    rw [havail hclear]
    exact (broken_or_clear s).imp_left fun hok => ⟨hok, hret hok, rfl, rfl, fun _ _ => rfl⟩

/-- What is left of a request behind a piece in a cluster of the file. -/
theorem available_piece {c off len : Nat} (hc : c < file.clusters.length) (hpos : s.filepos = c * vol.clusterSize + off)
    (hoff : off < vol.clusterSize) :
    file.available s.filepos len = min (vol.clusterSize - off) len +
      file.available (s.filepos + min (vol.clusterSize - off) len) (len - min (vol.clusterSize - off) len) := by
  have hsize : (c + 1) * vol.clusterSize ≤ file.size := Nat.mul_le_mul_right _ hc
  rw [Nat.succ_mul] at hsize
  unfold File.available
  omega

theorem Answered.same {sector byteOffset byteLen : Int} {ok : Bool} {bytes : List Byte}
    (h : Answered vol s sector byteOffset byteLen (ok, bytes, s')) : SameCache s s' := by
  cases h with
  | read same => exact same
  | failed same => exact same

theorem Keyed.same (h : Keyed vol s) (hs : SameCache s s') {filepos : Nat} : Keyed vol { s' with filepos := filepos } := by
  unfold Keyed at *
  simp only
  rw [hs.cachedFat, hs.fatBuf]
  exact h

theorem On.same (h : On file k s) (hs : SameCache s s') {filepos : Nat} : On file k { s' with filepos := filepos } :=
  ⟨h.inside, hs.currentClusterNum.trans h.currentClusterNum, hs.currentCluster.trans h.currentCluster⟩

/-- Steps along the chain before the loop ends change nothing of what it ends in. -/
theorem Ended.before {len ret : Nat} {buf : Nat → Byte} {s₁ : State σ} {r : Nat × (Nat → Byte) × State σ}
    (h : Ended file len ret buf s₁ r) (hs : SameFile s s₁) (herr : s₁.errnum = s.errnum) : Ended file len ret buf s r := by
  constructor
  case held => exact hs.fileCluster ▸ hs.lost ▸ h.held
  case lost => exact hs.lost ▸ h.lost
  case failures => exact hs.failures ▸ h.failures
  case errnum => exact herr ▸ h.errnum
  case exact =>
    intro hclear
    have hexact := h.exact (hs.filepos ▸ hclear)
    rw [hs.filepos] at hexact
    exact hexact.imp_right fun hbroken => ⟨hbroken.errnum, by rw [← herr, ← hs.failures]; exact hbroken.cause⟩

/-- A piece has been read, and the rest of the request ends as it does. -/
theorem Ended.piece {c off len ret : Nat} {buf : Nat → Byte} {s₁ s₂ : State σ} {bytes : List Byte} {ok : Bool}
    {r : Nat × (Nat → Byte) × State σ} (hc : c < file.clusters.length) (hpos : s.filepos = c * vol.clusterSize + off)
    (hoff : off < vol.clusterSize) (hlen : 0 < len) (hsame : SameFile s s₁) (herr : s₁.errnum = s.errnum)
    (hread : Answered vol s₁ (vol.super.clusterSector file.clusters[c]) off (min (vol.clusterSize - off) len : Nat) (ok, bytes, s₂))
    (hend : Ended file (len - min (vol.clusterSize - off) len) (ret + min (vol.clusterSize - off) len) (store buf ret bytes)
      { s₂ with filepos := s₂.filepos + min (vol.clusterSize - off) len } r) :
    Ended file len ret buf s r := by
  have havail := @available_piece _ _ s file c off len hc hpos hoff
  have hz : off + min (vol.clusterSize - off) len ≤ vol.clusterSize := by omega
  have hzlen : min (vol.clusterSize - off) len ≤ len := Nat.min_le_right _ _
  have hslice := slice_byteAt hc hz
  rw [← hpos] at hslice
  generalize min (vol.clusterSize - off) len = z at *
  have hcache := hread.same
  have hfailures : s₁.failures ≤ s₂.failures := by
    cases hread with
    | read _ _ _ failures => exact Nat.le_of_eq failures.symm
    | failed _ _ failures => exact failures
  have herrnum : s₁.errnum ≠ .none → s₂.errnum ≠ .none := by
    cases hread with
    | read _ errnum => exact absurd errnum
    | failed _ broken => exact fun _ => broken.errnum
  have hfilepos : s₂.filepos = s.filepos := hcache.filepos.trans hsame.filepos
  have hlost : s₂.lost = s.lost := hcache.lost.trans hsame.lost
  rw [hfilepos] at hend
  constructor
  case held => exact (hcache.fileCluster.trans hsame.fileCluster) ▸ fun h => hend.held (h.trans hlost.symm)
  case lost => exact hlost ▸ hend.lost
  case failures => exact hsame.failures ▸ Nat.le_trans hfailures hend.failures
  case errnum => exact fun h => hend.errnum (herrnum (herr ▸ h))
  case exact =>
    intro hclear
    have hrest : file.Clear (s.filepos + z) (len - z) := by
      intro i hi hlen' hlt
      exact hclear i hi (by omega) (by omega)
    obtain ⟨hok, hret, hpos', hbytes, hbelow⟩ | hbroken := hend.exact hrest
    · cases hread with
      | read same errnum errnum' failures =>
        rw [Int.toNat_natCast, clusterAddr_add file (List.getElem_mem hc)] at hbelow
        dsimp only at hret hpos' hbytes
        refine .inl ⟨hok, ?_, ?_, ?_, fun i hi => ?_⟩
        · rw [hret, havail, Nat.add_assoc]
        · rw [hpos', havail, Nat.add_assoc]
        · have hpiece : slice r.2.1 ret z = slice vol.disk (vol.clusterAddr file.clusters[c] + off) z := by
            rw [← Memory.slice_store buf ret (Memory.slice_length vol.disk (vol.clusterAddr file.clusters[c] + off) z)]
            apply Memory.slice_congr
            intro x _ hx
            exact hbelow x hx
          rw [havail, Memory.slice_add, Memory.slice_add, hpiece, hslice, hbytes]
        · rw [hbelow i (by omega), Memory.store_of_lt hi]
      | failed same broken =>
        exact absurd hok (hend.errnum broken.errnum)
    · refine .inr ⟨hbroken.errnum, ?_⟩
      obtain herr₂ | hmore := hbroken.cause
      · cases hread with
        | read same errnum errnum' => exact absurd errnum' herr₂
        | failed same broken =>
          refine broken.cause.imp (herr ▸ ·) fun hlt => ?_
          rw [hsame.failures] at hlt
          exact Nat.lt_of_lt_of_le hlt hend.failures
      · right
        rw [← hsame.failures]
        exact Nat.lt_of_le_of_lt hfailures hmore

theorem readClusters_ended (vol : Volume σ) (file : File vol) (fuel : Nat) {c off len ret : Nat} {buf : Nat → Byte} {s : State σ}
    (h : Looping file c off len s) (hfuel : len ≤ fuel) : Ended file len ret buf s (readClusters vol fuel c off len ret buf s) := by
  induction fuel generalizing c off len ret buf s with
  | zero =>
    obtain rfl : len = 0 := Nat.le_zero.1 hfuel
    exact readClusters_done h (fun _ => Nat.zero_min _) fun hok => by simp [hok]
  | succ fuel ih =>
    unfold readClusters
    by_cases hlen : len = 0
    · rw [if_pos hlen, hlen]
      exact readClusters_done (hlen ▸ h) (fun _ => Nat.zero_min _) fun hok => by simp [hok]
    · rw [if_neg hlen]
      obtain ⟨k, hkc, hon⟩ := h.on
      obtain ⟨hpos, hoff⟩ := h.place (Nat.pos_of_ne_zero hlen)
      have hmoved := advance_moved (c - k) h.keyed hon
      rw [hon.currentClusterNum]
      generalize s.advance vol (c - k) = result at hmoved
      cases hmoved with
      | @advanced s₁ on keyed same errnum =>
        rw [Nat.add_sub_cancel' hkc] at on
        have hin := on.inside
        have hread := devread_answered vol s₁ (vol.super.clusterSector s₁.currentCluster) off
          (min (vol.clusterSize - off) len : Nat)
        simp only
        rw [on.currentCluster] at hread ⊢
        rw [show 2 ^ vol.super.clustsizeBits = vol.clusterSize from rfl]
        generalize s₁.devread vol (vol.super.clusterSector file.clusters[c]) off (min (vol.clusterSize - off) len : Nat) = answer at hread ⊢
        obtain ⟨ok, bytes, s₂⟩ := answer
        refine Ended.piece hin hpos hoff (Nat.pos_of_ne_zero hlen) same errnum hread (ih ?_ (by omega))
        have hcache := hread.same
        refine ⟨keyed.same hcache, ⟨c, Nat.le_succ c, on.same hcache⟩, fun hmore => ⟨?_, clusterSize_pos vol⟩⟩
        have hwhole : min (vol.clusterSize - off) len = vol.clusterSize - off := by omega
        rw [hcache.filepos, same.filepos, hpos, hwhole, Nat.succ_mul]
        dsimp only
        omega
      | @eof s₁ j short inside on keyed same errnum last =>
        have hends : Ended file len ret buf s₁ (ret, buf, s₁) := by
          apply readClusters_done ⟨keyed, ⟨k + j, by omega, on⟩, fun _ => ⟨same.filepos.trans hpos, hoff⟩⟩
          · intro hclear
            have hlast : file.clusters.length = k + j + 1 := by
              apply last (hclear _ inside (Nat.pos_of_ne_zero hlen) _)
              have := Nat.mul_le_mul_right vol.clusterSize (show k + j + 1 ≤ c by omega)
              rw [same.filepos]
              omega
            have hsize : file.size ≤ c * vol.clusterSize := Nat.mul_le_mul_right _ (by omega)
            rw [same.filepos]
            unfold File.available
            omega
          · exact fun _ => rfl
        exact hends.before same errnum
      | @corrupt s₁ j short inside on keyed same reserved =>
        constructor
        case held => exact fun _ => ⟨keyed, same.fileCluster, k + j, on.inside, on.currentClusterNum, on.currentCluster⟩
        case lost => exact Nat.le_of_eq same.lost.symm
        case failures => exact Nat.le_of_eq same.failures.symm
        case errnum => exact fun _ => nofun
        case exact =>
          intro hclear
          have hreserved := hclear _ inside (Nat.pos_of_ne_zero hlen) (by
            have := Nat.mul_le_mul_right vol.clusterSize (show k + j + 1 ≤ c by omega)
            omega)
          exact absurd hreserved (Nat.not_lt.2 reserved)
      | @failed s₁ filepos broken failures lost =>
        constructor
        case held => exact fun h => absurd h (Nat.ne_of_gt lost)
        case lost => exact Nat.le_of_lt lost
        case failures => exact failures
        case errnum => exact fun _ => broken.errnum
        case exact => exact fun _ => .inr broken

/-! ## Calls -/

/-- `fat_dir` has found a file: its chain is `file`, and no position in it is known. -/
structure State.Opens (s : State σ) (file : File vol) : Prop where
  fileCluster : s.fileCluster = file.clusters.head file.nonempty
  currentClusterNum : s.currentClusterNum = maxint

/-- The states that calls lead to. In the last of them the file is open. -/
inductive Reached (vol : Volume σ) : File vol → State σ → Prop where
  /-- `fat_mount` has been called, and a file opened. -/
  | mounted {file : File vol} {s : State σ} (cachedFat : s.cachedFat = -2 * fatCacheSize) (opens : s.Opens file) : Reached vol file s
  /-- A file has been opened, and the root directory perhaps read for it. -/
  | opened {file file' : File vol} {s s' : State σ} (before : Reached vol file s) (cachedFat : s'.cachedFat = s.cachedFat)
    (fatBuf : s'.fatBuf = s.fatBuf) (opens : s'.Opens file') : Reached vol file' s'
  /-- A seek, after which the error may have been cleared. -/
  | sought {file : File vol} {s : State σ} (before : Reached vol file s) (filepos : Nat) (errnum : GrubError) (dev : σ) :
    Reached vol file { s with filepos := filepos, errnum := errnum, dev := dev }
  /-- A read in which no load of the window fails. -/
  | read {file : File vol} {s : State σ} (before : Reached vol file s) (filepos : s.filepos ≤ maxint) (len : Nat) (buf : Nat → Byte)
    (kept : (fatRead vol s len buf).2.2.lost = s.lost) : Reached vol file (fatRead vol s len buf).2.2

/-- Between calls. -/
structure Ready (file : File vol) (s : State σ) : Prop where
  keyed : Keyed vol s
  fileCluster : s.fileCluster = file.clusters.head file.nonempty
  position : s.currentClusterNum = maxint ∨ ∃ k, On file k s

/-- A call goes through the outer loop, from a position that is not behind the request. -/
theorem fatRead_ended (hr : Ready file s) (hpos : s.filepos ≤ maxint) (len : Nat) (buf : Nat → Byte) :
    ∃ (ret : Nat) (buf' : Nat → Byte) (s' : State σ),
      fatRead vol s len buf = ((ret : Int), buf', s') ∧ Ended file len 0 buf s (ret, buf', s') := by
  have hhead := file.inside _ (List.head_mem file.nonempty)
  have hbits := clustsizeBits_ge vol.mounted
  have hshift : s.filepos >>> vol.super.clustsizeBits = s.filepos / vol.clusterSize := Nat.shiftRight_eq_div_pow _ _
  have hmask : s.filepos &&& (1 <<< vol.super.clustsizeBits - 1) = s.filepos % vol.clusterSize := by
    rw [Nat.one_shiftLeft]
    exact Nat.and_two_pow_sub_one_eq_mod _ _
  have hopen : ¬ s.fileCluster < 0 := by
    rw [hr.fileCluster]
    omega
  have hbelow : s.filepos / vol.clusterSize < maxint := by
    have hsize : 2 ^ 9 ≤ vol.clusterSize := Nat.pow_le_pow_right (by decide) hbits
    have hdiv : s.filepos / vol.clusterSize ≤ s.filepos / 2 ^ 9 := Nat.div_le_div_left hsize (by decide)
    unfold maxint at *
    omega
  have hplace : s.filepos = s.filepos / vol.clusterSize * vol.clusterSize + s.filepos % vol.clusterSize :=
    (Nat.div_add_mod' _ _).symm
  have hoff : s.filepos % vol.clusterSize < vol.clusterSize := Nat.mod_lt _ (clusterSize_pos vol)
  have hended (s₁ : State σ) (hloop : Looping file (s.filepos / vol.clusterSize) (s.filepos % vol.clusterSize) len s₁)
      (hsame : SameFile s s₁) (herr : s₁.errnum = s.errnum) : Ended file len 0 buf s
        (readClusters vol len (s.filepos / vol.clusterSize) (s.filepos % vol.clusterSize) len 0 buf s₁) :=
    (readClusters_ended vol file len hloop (Nat.le_refl len)).before hsame herr
  unfold fatRead
  rw [if_neg hopen]
  simp only [hshift, hmask]
  refine ⟨_, _, _, rfl, ?_⟩
  split_ifs with hback
  · refine hended { s with currentClusterNum := 0, currentCluster := s.fileCluster } ?_ ⟨rfl, rfl, rfl, rfl⟩ rfl
    refine ⟨hr.keyed, ⟨0, Nat.zero_le _, List.length_pos_of_ne_nil file.nonempty, rfl, ?_⟩, fun _ => ⟨hplace, hoff⟩⟩
    simp only [hr.fileCluster, List.head_eq_getElem]
  · refine hended s ?_ (.refl s) rfl
    obtain hmax | ⟨k, hon⟩ := hr.position
    · omega
    · refine ⟨hr.keyed, ⟨k, ?_, hon⟩, fun _ => ⟨hplace, hoff⟩⟩
      have hnum := hon.currentClusterNum
      omega

theorem Reached.ready (h : Reached vol file s) : Ready file s := by
  induction h with
  | mounted cachedFat opens => exact ⟨.inl cachedFat, opens.fileCluster, .inl opens.currentClusterNum⟩
  | opened _ cachedFat fatBuf opens ih =>
    refine ⟨?_, opens.fileCluster, .inl opens.currentClusterNum⟩
    have hkeyed := ih.keyed
    unfold Keyed at *
    rwa [cachedFat, fatBuf]
  | sought _ filepos errnum dev ih =>
    refine ⟨ih.keyed, ih.fileCluster, ih.position.imp_right ?_⟩
    exact fun ⟨k, hon⟩ => ⟨k, hon.inside, hon.currentClusterNum, hon.currentCluster⟩
  | read _ filepos len buf kept ih =>
    obtain ⟨ret, buf', s', hread, hended⟩ := fatRead_ended ih filepos len buf
    rw [hread] at kept ⊢
    obtain ⟨hkeyed, hfile, hon⟩ := hended.held kept
    exact ⟨hkeyed, hfile.trans ih.fileCluster, .inr hon⟩

section Examples

/-- A device whose first read fails if it is faulty, when it has written four bytes. -/
def device (faulty : Bool) (asked : Nat) (_sector _byteOffset _byteLen : Int) : Option Failure × Nat :=
  (if faulty ∧ asked = 0 then some ⟨.read, nofun, [5, 5, 5, 5]⟩ else none, asked + 1)

/-- A volume with sectors full of their own numbers, but for what the FAT says. -/
def numbered (fat : Nat → Option Byte) (p : Nat) : Byte := (fat p).getD (BitVec.ofNat 8 (p / 512))

/-- FAT12 with one sector for the FAT and 37 clusters of one sector. The entry of cluster 2
is 3, and that of cluster 3 ends the chain. -/
def floppy (faulty : Bool) : Volume Nat where
  bpb := ⟨512, 1, 1, 1, 16, 40, 0xf0, 1, 0, 0, 0, 0⟩
  firstFat := 0x3fffff0
  super := (fatMount ⟨512, 1, 1, 1, 16, 40, 0xf0, 1, 0, 0, 0, 0⟩ 0x3fffff0).get (by decide +kernel)
  mounted := (Option.some_get _).symm
  disk := numbered fun p => if p = 515 then some 0x03 else if p = 516 then some 0xf0 else if p = 517 then some 0xff else none
  devread := device faulty

/-- A file that starts at cluster 2 has been opened on a volume just mounted, and its second
cluster sought. -/
def sought : State Nat := ⟨.none, 512, -2 * fatCacheSize, fun _ => 0, 2, maxint, 0, 0, 0, 0⟩

/-- The first read of the FAT has failed, and the error been cleared. -/
def cleared : State Nat := { (fatRead (floppy true) sought 1 fun _ => 0).2.2 with errnum := .none }

end Examples

end TrustedGrub.Fat
