import TrustedGrub.Ntfs.Hostile

/-!
# The fix-up of a record

A record is written with the update sequence number in the last two bytes of each sector, and
what was there in the update-sequence array. `fixup_record` takes that back.
-/

namespace TrustedGrub.Ntfs
open Fips180 (Byte)

/-! ## Records with an array -/

/-- The update sequence number, which is in front of the array. -/
def usn (record : List Byte) : Nat := halfAt record (halfAt record 4)

/-- What the array has for the `i`-th sector. -/
def saved (record : List Byte) (i : Nat) : Nat := halfAt record (halfAt record 4 + 2 * (i + 1))

/-- A record of `n` sectors whose update-sequence array lies in the first. -/
structure Sectored (record : List Byte) (magic : Nat) (blocksize : BitVec 16) (n : Nat) : Prop where
  pos : 0 < n
  length : record.length = n * blocksize.toNat
  header : 8 ≤ record.length
  magic : halfAt record 0 + 0x10000 * halfAt record 2 = magic
  updates : halfAt record 6 = n + 1
  array : halfAt record 4 + 2 * (n + 1) ≤ blocksize.toNat

/-- The header and the array are in front of the last two bytes of the first sector. -/
structure Ahead (record : List Byte) (blocksize : BitVec 16) (n : Nat) : Prop where
  header : 8 + 2 ≤ blocksize.toNat
  array : halfAt record 4 + 2 * (n + 1) + 2 ≤ blocksize.toNat

/-- Each sector ends with the update sequence number. -/
def Stamped (record : List Byte) (blocksize : BitVec 16) (n : Nat) : Prop :=
  ∀ i < n, halfAt record (sectorEnd blocksize i) = usn record

/-- The array has what each sector ends with. -/
def Filled (record : List Byte) (blocksize : BitVec 16) (n : Nat) : Prop :=
  ∀ i < n, saved record i = halfAt record (sectorEnd blocksize i)

/-- The last two bytes of the first sectors are replaced. -/
def setEnds (blocksize : BitVec 16) (value : Nat → Nat) (record : List Byte) : Nat → List Byte
  | 0 => record
  | i + 1 => setHalf (setEnds blocksize value record i) (sectorEnd blocksize i) (value i)

/-- The protection that a record is written with, once its array is filled. -/
def protect (blocksize : BitVec 16) (n : Nat) (record : List Byte) : List Byte :=
  setEnds blocksize (fun _ => usn record) record n

/-- The two bytes are the last of none of the sectors. -/
def Within (blocksize : BitVec 16) (n a : Nat) : Prop := ∀ i < n, (a : Int) ≠ sectorEnd blocksize i ∧ (a : Int) ≠ sectorEnd blocksize i + 1

/-- The original bytes are back, and nothing else has changed. -/
structure Restored (blocksize : BitVec 16) (n : Nat) (record record' : List Byte) : Prop where
  length : record'.length = record.length
  ends : ∀ i < n, halfAt record' (sectorEnd blocksize i) = saved record i
  frame : ∀ a, Within blocksize n a → record'[a]? = record[a]?

/-- `fixup_record` takes the protection back. -/
structure Unprotects (record : List Byte) (magic : Nat) (blocksize : BitVec 16) (n : Nat) (size : Int) : Prop where
  answers : ∃ ok record', fixupRecord record magic blocksize size = some (ok, record') ∧ (ok = true ↔ Stamped record blocksize n) ∧
    (ok = true → Restored blocksize n record record' ∧ protect blocksize n record' = record)
  inverts : Filled record blocksize n → fixupRecord (protect blocksize n record) magic blocksize size = some (true, record)

/-! ## Two bytes at a time -/

variable {record record' : List Byte} {blocksize : BitVec 16} {value : Nat → Nat} {magic n i k : Nat} {off : Int}

theorem getElem?_setHalf {v : Nat} (hlow : k ≠ off.toNat) (hhigh : k ≠ off.toNat + 1) : (setHalf record off v)[k]? = record[k]? := by
  rw [setHalf, List.getElem?_set_ne (Ne.symm hhigh), List.getElem?_set_ne (Ne.symm hlow)]

theorem halfAt_congr (hlow : record'[off.toNat]? = record[off.toNat]?) (hhigh : record'[off.toNat + 1]? = record[off.toNat + 1]?) :
    halfAt record' off = halfAt record off := by
  simp only [halfAt, List.getD_eq_getElem?_getD, hlow, hhigh]

theorem halfAt_lt (record : List Byte) (off : Int) : halfAt record off < 0x10000 := by
  have hlow := (record.getD off.toNat 0).isLt
  have hhigh := (record.getD (off.toNat + 1) 0).isLt
  rw [halfAt]
  omega

theorem halfAt_setHalf_self {v : Nat} (hin : Inside record off) (hv : v < 0x10000) : halfAt (setHalf record off v) off = v := by
  obtain ⟨hlo, hhi⟩ := hin
  have hlow : (setHalf record off v).getD off.toNat 0 = BitVec.ofNat 8 v := by
    rw [setHalf, List.getD_eq_getElem?_getD, List.getElem?_set_ne (by omega), List.getElem?_set_self (by omega)]
    rfl
  have hhigh : (setHalf record off v).getD (off.toNat + 1) 0 = BitVec.ofNat 8 (v / 0x100) := by
    rw [setHalf, List.getD_eq_getElem?_getD, List.getElem?_set_self (by rw [List.length_set]; omega)]
    rfl
  rw [halfAt, hlow, hhigh, BitVec.toNat_ofNat, BitVec.toNat_ofNat]
  omega

/-- Two bytes are what their number is. -/
theorem getElem?_of_halfAt (hlength : record'.length = record.length) (hin : Inside record off)
    (h : halfAt record' off = halfAt record off) :
    record'[off.toNat]? = record[off.toNat]? ∧ record'[off.toNat + 1]? = record[off.toNat + 1]? := by
  obtain ⟨hlo, hhi⟩ := hin
  have hlow : off.toNat < record.length := by omega
  have hhigh : off.toNat + 1 < record.length := by omega
  rw [List.getElem?_eq_getElem hlow, List.getElem?_eq_getElem hhigh, List.getElem?_eq_getElem (hlength ▸ hlow),
    List.getElem?_eq_getElem (hlength ▸ hhigh)]
  simp only [halfAt, List.getD_eq_getElem?_getD, List.getElem?_eq_getElem hlow, List.getElem?_eq_getElem hhigh,
    List.getElem?_eq_getElem (hlength ▸ hlow), List.getElem?_eq_getElem (hlength ▸ hhigh), Option.getD_some] at h
  have hlt : ∀ b : Byte, b.toNat < 256 := fun b => b.isLt
  have hrest := hlt (record.get ⟨off.toNat, hlow⟩)
  have hrest' := hlt (record'.get ⟨off.toNat, hlength ▸ hlow⟩)
  simp only [List.get_eq_getElem] at hrest hrest'
  constructor
  · apply congrArg some
    apply BitVec.eq_of_toNat_eq
    omega
  · apply congrArg some
    apply BitVec.eq_of_toNat_eq
    omega

/-! ## The ends of the sectors -/

@[simp] theorem length_setEnds (blocksize : BitVec 16) (value : Nat → Nat) (record : List Byte) (n : Nat) :
    (setEnds blocksize value record n).length = record.length := by
  induction n with
  | zero => rfl
  | succ n ih => rw [setEnds, length_setHalf, ih]

theorem Within.of_succ (h : Within blocksize (n + 1) k) : Within blocksize n k := fun i hi => h i (Nat.lt_succ_of_lt hi)

section Ends
variable (hblock : 2 ≤ blocksize.toNat)
include hblock

theorem sectorEnd_nonneg (i : Nat) : 0 ≤ sectorEnd blocksize i := (sectorEnd_le hblock (Nat.lt_succ_self i)).1

theorem getElem?_setEnds (h : Within blocksize n k) : (setEnds blocksize value record n)[k]? = record[k]? := by
  induction n with
  | zero => rfl
  | succ n ih =>
    obtain ⟨hlow, hhigh⟩ := h n (Nat.lt_succ_self n)
    have hnonneg := sectorEnd_nonneg hblock n
    rw [setEnds, getElem?_setHalf (by omega) (by omega)]
    exact ih h.of_succ

/-- Two bytes that are apart from the ends. -/
theorem halfAt_setEnds (hoff : 0 ≤ off) (h : ∀ i < n, off + 2 ≤ sectorEnd blocksize i ∨ sectorEnd blocksize i + 2 ≤ off) :
    halfAt (setEnds blocksize value record n) off = halfAt record off := by
  apply halfAt_congr
  · apply getElem?_setEnds hblock
    intro i hi
    have happart := h i hi
    omega
  · apply getElem?_setEnds hblock
    intro i hi
    have happart := h i hi
    omega

/-- Two bytes in front of the first end. -/
theorem halfAt_setEnds_front (hoff : 0 ≤ off) (h : off + 4 ≤ blocksize.toNat) :
    halfAt (setEnds blocksize value record n) off = halfAt record off := by
  apply halfAt_setEnds hblock hoff
  intro i _
  have hfirst : sectorEnd blocksize 0 ≤ sectorEnd blocksize i := by
    obtain rfl | hpos := Nat.eq_zero_or_pos i
    · exact le_rfl
    · have hle := (sectorEnd_le hblock hpos).2
      omega
  simp only [sectorEnd, Nat.cast_zero, zero_add, mul_one] at hfirst
  simp only [sectorEnd]
  omega

/-- The ends of the sectors that follow. -/
theorem halfAt_setEnds_next (h : n ≤ i) :
    halfAt (setEnds blocksize value record n) (sectorEnd blocksize i) = halfAt record (sectorEnd blocksize i) := by
  apply halfAt_setEnds hblock (sectorEnd_nonneg hblock i)
  intro j hj
  exact .inr (sectorEnd_le hblock (by omega)).2

theorem sectorEnd_inside (hlength : record.length = n * blocksize.toNat) (hi : i < n) : Inside record (sectorEnd blocksize i) := by
  have hnonneg := sectorEnd_nonneg hblock i
  have hle : blocksize.toNat * (i + 1) ≤ n * blocksize.toNat := by
    rw [Nat.mul_comm]
    exact Nat.mul_le_mul_right _ hi
  refine ⟨hnonneg, ?_⟩
  have hle' : (blocksize.toNat * (i + 1) : Int) ≤ record.length := by
    rw [hlength]
    exact_mod_cast hle
  simp only [sectorEnd]
  omega

theorem halfAt_setEnds_self (hlength : record.length = k * blocksize.toNat) (hn : n ≤ k) (hvalue : ∀ i < n, value i < 0x10000)
    (hi : i < n) :
    halfAt (setEnds blocksize value record n) (sectorEnd blocksize i) = value i := by
  induction n with
  | zero => omega
  | succ n ih =>
    rw [setEnds]
    obtain rfl | hlt := Nat.eq_or_lt_of_le (Nat.le_of_lt_succ hi)
    · apply halfAt_setHalf_self
      · apply sectorEnd_inside hblock (n := k)
        · rw [length_setEnds, hlength]
        · omega
      · exact hvalue i hi
    · rw [← ih (by omega) (fun j hj => hvalue j (by omega)) hlt]
      have hle := (sectorEnd_le hblock hlt).2
      have hnonneg := sectorEnd_nonneg hblock i
      apply halfAt_congr
      · exact getElem?_setHalf (by omega) (by omega)
      · exact getElem?_setHalf (by omega) (by omega)

/-- A record is what it is between the ends, and the ends. -/
theorem setEnds_eq (hlength : record.length = n * blocksize.toNat) (hlength' : record'.length = record.length)
    (hvalue : ∀ i < n, value i < 0x10000) (hends : ∀ i < n, halfAt record' (sectorEnd blocksize i) = value i)
    (hframe : ∀ a, Within blocksize n a → record'[a]? = record[a]?) : setEnds blocksize value record n = record' := by
  apply List.ext_getElem?
  intro a
  by_cases ha : Within blocksize n a
  · rw [getElem?_setEnds hblock ha, hframe a ha]
  · simp only [Within, not_forall] at ha
    obtain ⟨i, hi, hat⟩ := ha
    have hnonneg := sectorEnd_nonneg hblock i
    have hsame : halfAt (setEnds blocksize value record n) (sectorEnd blocksize i) = halfAt record' (sectorEnd blocksize i) := by
      rw [halfAt_setEnds_self hblock hlength le_rfl hvalue hi, hends i hi]
    have hinside : Inside record' (sectorEnd blocksize i) := by
      apply sectorEnd_inside hblock (n := n)
      · rw [hlength', hlength]
      · exact hi
    obtain ⟨hlow, hhigh⟩ := getElem?_of_halfAt (by rw [length_setEnds, hlength']) hinside hsame
    obtain rfl | rfl : a = (sectorEnd blocksize i).toNat ∨ a = (sectorEnd blocksize i).toNat + 1 := by omega
    · exact hlow
    · exact hhigh

end Ends

/-! ## The loop -/

theorem sectorEnd_int32 (hn : n < 0x8000) (hblock : 2 ≤ blocksize.toNat) (hi : i < n) :
    int32 (sectorEnd blocksize i + blocksize.toNat) = sectorEnd blocksize (i + 1) := by
  rw [sectorEnd_succ]
  have hnonneg := sectorEnd_nonneg hblock (i + 1)
  have hle : blocksize.toNat * (i + 1 + 1) ≤ 0xFFFF * 0x8000 := Nat.mul_le_mul (by omega) (by omega)
  have hle' : (blocksize.toNat * (i + 1 + 1) : Int) ≤ 0xFFFF * 0x8000 := by exact_mod_cast hle
  apply int32_of_lt
  · omega
  · simp only [sectorEnd]
    push_cast
    omega

/-- The loop from the `i`-th sector on, where the array is in front of the first end. -/
theorem fixupLoop_spec {start m : Nat} (hn : n < 0x8000) (hblock : 2 ≤ blocksize.toNat) (hlength : record.length = n * blocksize.toNat)
    (harray : start + 2 * (n + 1) + 2 ≤ blocksize.toNat) (fixup : Nat) (hm : i + m = n) :
    ∃ ok record', fixupLoop blocksize fixup m (start + 2 * (i + 1)) (sectorEnd blocksize i)
        (setEnds blocksize (fun i => halfAt record (start + 2 * (i + 1))) record i) = some (ok, record') ∧
      (ok = true ↔ ∀ j < n, i ≤ j → halfAt record (sectorEnd blocksize j) = fixup) ∧
      (ok = true → record' = setEnds blocksize (fun i => halfAt record (start + 2 * (i + 1))) record n) := by
  induction m generalizing i with
  | zero =>
    obtain rfl : i = n := hm
    refine ⟨true, _, rfl, ?_, fun _ => rfl⟩
    simp only [true_iff]
    intro j hj hij
    omega
  | succ m ih =>
    have hi : i < n := by omega
    have hinside : Inside (setEnds blocksize (fun i => halfAt record (start + 2 * (i + 1))) record i) (sectorEnd blocksize i) := by
      apply sectorEnd_inside hblock (n := n)
      · rw [length_setEnds, hlength]
      · exact hi
    have hvalue : Inside (setEnds blocksize (fun i => halfAt record (start + 2 * (i + 1))) record i) (start + 2 * (i + 1)) := by
      constructor
      · omega
      · have hone : 1 * blocksize.toNat ≤ n * blocksize.toNat := Nat.mul_le_mul_right _ (by omega)
        rw [length_setEnds, hlength]
        omega
    rw [fixupLoop, half_inside hinside, halfAt_setEnds_next hblock le_rfl]
    simp only [Option.bind_eq_bind, Option.bind_some]
    by_cases hmatch : halfAt record (sectorEnd blocksize i) = fixup
    · have hstart : int32 ((start : Int) + 2 * (i + 1) + 2) = start + 2 * ((i + 1 : Nat) + 1) := by
        rw [int32_of_lt (by omega) (by omega)]
        push_cast
        ring
      have hsaved : halfAt (setEnds blocksize (fun i => halfAt record (start + 2 * (i + 1))) record i) (start + 2 * (i + 1)) =
          halfAt record (start + 2 * (i + 1)) := by
        apply halfAt_setEnds_front hblock
        · omega
        · omega
      rw [if_neg (not_not.2 hmatch), half_inside hvalue, Option.bind_some, hsaved, hstart, sectorEnd_int32 hn hblock hi]
      obtain ⟨ok, record', hloop, hok, heq⟩ := ih (i := i + 1) (by omega)
      refine ⟨ok, record', hloop, ?_, heq⟩
      rw [hok]
      constructor
      · intro h j hj hij
        obtain rfl | hlt := Nat.eq_or_lt_of_le hij
        · exact hmatch
        · exact h j hj hlt
      · exact fun h j hj hij => h j hj (Nat.le_of_succ_le hij)
    · rw [if_pos hmatch]
      refine ⟨false, _, rfl, ?_, ?_⟩
      · simp only [Bool.false_eq_true, false_iff]
        exact fun h => hmatch (h i hi le_rfl)
      · intro h
        cases h

/-! ## The record -/

variable {size : Int}

theorem Sectored.lt (h : Sectored record magic blocksize n) : n < 0x8000 := by
  have hlt := blocksize.isLt
  have harray := h.array
  omega

theorem Sectored.blocksize_le (h : Sectored record magic blocksize n) : blocksize.toNat ≤ record.length := by
  rw [h.length]
  exact Nat.le_mul_of_pos_left _ h.pos

theorem fixupRecord_eq (h : Sectored record magic blocksize n) (hsize : size = 0 ∨ size = n * blocksize.toNat) :
    fixupRecord record magic blocksize size = fixupLoop blocksize (usn record) n (halfAt record 4 + 2) (blocksize.toNat - 2) record := by
  have hin {off : Nat} (hoff : off + 2 ≤ record.length) : half record off = some (halfAt record off) := half_inside ⟨by omega, by omega⟩
  have hheader := h.header
  have hle := h.blocksize_le
  have harray := h.array
  have hlt := h.lt
  have hmul : blocksize.toNat * n ≤ 0xFFFF * 0x7FFF := Nat.mul_le_mul (by omega) (by omega)
  have hcount : ((halfAt record 6 : Int) - 1) = n := by
    rw [h.updates]
    push_cast
    ring
  have hbytes : int32 (blocksize.toNat * (n : Int)) = n * blocksize.toNat := by
    rw [int32_of_lt (by omega) (by omega), mul_comm]
  have hlow := @hin 0 (by omega)
  have hhigh := @hin 2 (by omega)
  have hstart := @hin 4 (by omega)
  have hupdates := @hin 6 (by omega)
  have husn := @hin (halfAt record 4) (by omega)
  simp only [Nat.cast_zero, Nat.cast_ofNat] at hlow hhigh hstart hupdates
  have hmod : ((n : Int) % 2 ^ 32).toNat = n := by omega
  have hmagic : ¬ (halfAt record 0 + 0x10000 * halfAt record 2 ≠ magic) := not_not.2 h.magic
  have hfits : ¬ (size ≠ 0 ∧ (n * blocksize.toNat : Int) ≠ size) := by
    rintro ⟨hne, hother⟩
    exact hsize.elim hne fun heq => hother heq.symm
  unfold fixupRecord
  simp only [hlow, hhigh, hstart, hupdates, husn, Option.bind_eq_bind, Option.bind_some, if_neg hmagic, hcount, hbytes, if_neg hfits, hmod]
  rfl

theorem Ahead.two_le (h : Ahead record blocksize n) : 2 ≤ blocksize.toNat := by
  have hheader := h.header
  omega

theorem Ahead.usn_setEnds (h : Ahead record blocksize n) (hhead : halfAt record' 4 = halfAt record 4)
    (hset : record' = setEnds blocksize value record n) : usn record' = usn record := by
  have harray := h.array
  rw [usn, usn, hhead, hset]
  apply halfAt_setEnds_front h.two_le
  · omega
  · omega

theorem Ahead.head_setEnds (h : Ahead record blocksize n) (hoff : 0 ≤ off) (hlt : off ≤ 6) :
    halfAt (setEnds blocksize value record n) off = halfAt record off := by
  have hheader := h.header
  apply halfAt_setEnds_front h.two_le hoff
  omega

theorem fixupRecord_answers (h : Sectored record magic blocksize n) (ha : Ahead record blocksize n)
    (hsize : size = 0 ∨ size = n * blocksize.toNat) :
    ∃ ok record', fixupRecord record magic blocksize size = some (ok, record') ∧ (ok = true ↔ Stamped record blocksize n) ∧
      (ok = true → record' = setEnds blocksize (saved record) record n) := by
  obtain ⟨ok, record', hloop, hok, heq⟩ := fixupLoop_spec (i := 0) h.lt ha.two_le h.length ha.array (usn record) (Nat.zero_add n)
  simp only [Nat.cast_zero, zero_add, mul_one] at hloop
  have hend : sectorEnd blocksize 0 = blocksize.toNat - 2 := by simp [sectorEnd]
  refine ⟨ok, record', ?_, ?_, ?_⟩
  · rw [fixupRecord_eq h hsize, ← hloop, hend]
    rfl
  · rw [hok]
    exact ⟨fun hall j hj => hall j hj (Nat.zero_le j), fun hall j hj _ => hall j hj⟩
  · exact heq

theorem Sectored.protect (h : Sectored record magic blocksize n) (ha : Ahead record blocksize n) :
    Sectored (protect blocksize n record) magic blocksize n := by
  unfold Ntfs.protect
  constructor
  · exact h.pos
  · rw [length_setEnds, h.length]
  · rw [length_setEnds]
    exact h.header
  · rw [ha.head_setEnds (by omega) (by omega), ha.head_setEnds (by omega) (by omega)]
    exact h.magic
  · rw [ha.head_setEnds (by omega) (by omega)]
    exact h.updates
  · rw [ha.head_setEnds (by omega) (by omega)]
    exact h.array

/-- `fixup_record` and the protection are inverse to each other. -/
theorem fixupRecord_unprotects (h : Sectored record magic blocksize n) (ha : Ahead record blocksize n)
    (hsize : size = 0 ∨ size = n * blocksize.toNat) : Unprotects record magic blocksize n size := by
  have hsaved : ∀ i < n, saved record i < 0x10000 := fun i _ => halfAt_lt _ _
  constructor
  · obtain ⟨ok, record', hfixup, hok, heq⟩ := fixupRecord_answers h ha hsize
    refine ⟨ok, record', hfixup, hok, ?_⟩
    intro htrue
    have hset := heq htrue
    have hstamped := hok.1 htrue
    have hrestored : Restored blocksize n record record' := by
      rw [hset]
      constructor
      · exact length_setEnds ..
      · exact fun i hi => halfAt_setEnds_self ha.two_le h.length le_rfl hsaved hi
      · exact fun a hin => getElem?_setEnds ha.two_le hin
    refine ⟨hrestored, ?_⟩
    have husn : usn record' = usn record := by
      apply ha.usn_setEnds _ hset
      rw [hset]
      exact ha.head_setEnds (by omega) (by omega)
    apply setEnds_eq ha.two_le
    · rw [hrestored.length, h.length]
    · exact hrestored.length.symm
    · exact fun i _ => halfAt_lt _ _
    · intro i hi
      rw [husn]
      exact hstamped i hi
    · exact fun a hin => (hrestored.frame a hin).symm
  · intro hfilled
    have hp := h.protect ha
    have hhead : halfAt (protect blocksize n record) 4 = halfAt record 4 := ha.head_setEnds (by omega) (by omega)
    have ha' : Ahead (protect blocksize n record) blocksize n := ⟨ha.header, hhead.symm ▸ ha.array⟩
    obtain ⟨ok, record', hfixup, hok, heq⟩ := fixupRecord_answers hp ha' hsize
    have htrue : ok = true := by
      apply hok.2
      intro i hi
      rw [ha.usn_setEnds hhead rfl]
      exact halfAt_setEnds_self ha.two_le h.length le_rfl (fun _ _ => halfAt_lt _ _) hi
    have hback : setEnds blocksize (saved (protect blocksize n record)) (protect blocksize n record) n = record := by
      apply setEnds_eq ha.two_le hp.length
      · rw [protect, length_setEnds]
      · exact fun i _ => halfAt_lt _ _
      · intro i hi
        have harray := ha.array
        rw [← hfilled i hi, saved, saved, hhead]
        symm
        apply halfAt_setEnds_front ha.two_le
        · omega
        · omega
      · exact fun a hin => (getElem?_setEnds ha.two_le hin).symm
    rw [hfixup, htrue, heq htrue, hback]

/-- A record of two sectors, with the array behind the header. -/
def twoSectors : List Byte :=
  [0x46, 0x49, 0x4C, 0x45, 0x08, 0x00, 0x03, 0x00, 0x01, 0x00, 0x02, 0x00, 0x03, 0x00] ++ List.replicate 496 0 ++ [0x01, 0x00] ++
    List.replicate 510 0 ++ [0x01, 0x00]

theorem fixupRecord_unprotects_twoSectors : Unprotects twoSectors 0x454C4946 512 2 1024 := by
  apply fixupRecord_unprotects
  · constructor <;> decide +kernel
  · constructor <;> decide +kernel
  · decide

/-- A record of two sectors whose array ends with the first sector. -/
def arrayAtEnd : List Byte :=
  [0x46, 0x49, 0x4C, 0x45, 0xFA, 0x01, 0x03, 0x00] ++ List.replicate 498 0 ++ [0x01, 0x00, 0x02, 0x00, 0x01, 0x00] ++
    List.replicate 510 0 ++ [0x01, 0x00]

/-- The first sector is restored over what the array has for the second. -/
theorem arrayAtEnd_lost : Sectored arrayAtEnd 0x454C4946 512 2 ∧ ¬ Unprotects arrayAtEnd 0x454C4946 512 2 1024 := by
  constructor
  · constructor <;> decide +kernel
  · intro h
    obtain ⟨ok, record', hfixup, -, hrestored⟩ := h.answers
    have hrun : (fixupRecord arrayAtEnd 0x454C4946 512 1024).map (fun r => (r.1, halfAt r.2 (sectorEnd 512 1))) = some (true, 2) := by
      decide +kernel
    rw [hfixup, Option.map_some, Option.some.injEq, Prod.mk.injEq] at hrun
    have hsecond := (hrestored hrun.1).1.ends 1 (by decide)
    rw [hrun.2] at hsecond
    exact absurd hsecond (by decide +kernel)

end TrustedGrub.Ntfs
