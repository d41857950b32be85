import TrustedGrub.Disk.BlockName

/-!
# The partition that a file system is on

`devread` as the drivers of the file systems use it, the numbers of `int` type that they hand
to it, and what a read comes to.
-/

namespace TrustedGrub.Fsys
open Disk (GrubError)

abbrev Byte := BitVec 8
abbrev Word := BitVec 32
/-- `long long`. -/
abbrev Long := BitVec 64
/-- The bytes of a buffer. -/
abbrev Block := Nat → Byte

/-- A partition. `rawread` of the drive below it delivers the bytes at a place, or it leaves
something in the buffer. -/
structure Partition (σ : Type) where
  partLength : Word
  bytes : Nat → Byte
  rawread : σ → Nat → Nat → Block → Option Block × σ
  /-- The error that a failure sets. -/
  fault : { errnum : GrubError // errnum ≠ .none }

/-- `errnum`, and the state of the drive. -/
structure Io (σ : Type) where
  errnum : GrubError
  dev : σ

variable {σ : Type}

/-- `devread`. -/
def devread (d : Partition σ) (sector byteOffset byteLen : Word) (buf : Block) (io : Io σ) : Bool × Block × Io σ :=
  if sector.toInt < 0 ∨ d.partLength ≤ sector + (byteOffset + byteLen - 1).sshiftRight 9 then
    (false, buf, { io with errnum := .outsidePart })
  else
    match d.rawread io.dev (512 * sector.toNat + byteOffset.toNat) byteLen.toNat buf with
    | (none, dev) =>
      (true, fun i => if i < byteLen.toNat then d.bytes (512 * sector.toNat + byteOffset.toNat + i) else buf i, { io with dev := dev })
    | (some left, dev) => (false, left, ⟨d.fault, dev⟩)

/-- Some read fails, or there are sectors that no `int` can name. -/
def Faulty (d : Partition σ) : Prop := (∃ dev pos n buf, (d.rawread dev pos n buf).1.isSome) ∨ 2 ^ 31 < d.partLength.toNat

/-- A read has failed. -/
def Io.Lost (d : Partition σ) (io : Io σ) : Prop := io.errnum ≠ .none ∧ Faulty d

/-! ## Numbers -/

section Numbers

theorem ofNat_toNat_small {n : Nat} (hn : n < 2 ^ 31) : (BitVec.ofNat 32 n).toNat = n := by
  rw [BitVec.toNat_ofNat, Nat.mod_eq_of_lt (by omega)]

theorem ofNat_toInt_small {n : Nat} (hn : n < 2 ^ 31) : (BitVec.ofNat 32 n).toInt = n := by
  rw [BitVec.toInt_eq_toNat_of_lt, ofNat_toNat_small hn]
  rw [ofNat_toNat_small hn]
  omega

theorem ofNat_succ_ne_zero {n : Nat} (hn : n + 1 < 2 ^ 32) : BitVec.ofNat 32 (n + 1) ≠ 0 := by
  intro hzero
  have hvalue := congrArg BitVec.toNat hzero
  rw [BitVec.toNat_ofNat, Nat.mod_eq_of_lt hn] at hvalue
  exact absurd hvalue (Nat.succ_ne_zero n)

/-- A number that fits is the same when the word is wider. -/
theorem setWidth_ofNat {k w n : Nat} (hn : n < 2 ^ k) (hk : k ≤ w) : (BitVec.ofNat k n).setWidth w = .ofNat w n := by
  apply BitVec.eq_of_toNat_eq
  rw [BitVec.toNat_setWidth_of_le hk, BitVec.toNat_ofNat, BitVec.toNat_ofNat, Nat.mod_eq_of_lt hn,
    Nat.mod_eq_of_lt (Nat.lt_of_lt_of_le hn (Nat.pow_le_pow_right Nat.two_pos hk))]

theorem signExtend_small {w : Word} {n : Nat} (h : w.toNat = n) (hn : n < 2 ^ 31) : w.signExtend 64 = .ofNat 64 n := by
  rw [BitVec.signExtend_eq_setWidth_of_msb_false]
  · apply BitVec.eq_of_toNat_eq
    rw [BitVec.toNat_setWidth_of_le (by decide), BitVec.toNat_ofNat, h, Nat.mod_eq_of_lt (by omega)]
  · rw [BitVec.msb_eq_false_iff_two_mul_lt]
    omega

theorem signExtend_ofNat {n : Nat} (hn : n < 2 ^ 31) : (BitVec.ofNat 32 n).signExtend 64 = .ofNat 64 n :=
  signExtend_small (ofNat_toNat_small hn) hn

theorem signExtend_sshiftRight {n k : Nat} (hn : n < 2 ^ 31) :
    ((BitVec.ofNat 32 n).sshiftRight k).signExtend 64 = .ofNat 64 (n / 2 ^ k) := by
  apply signExtend_small _ (Nat.lt_of_le_of_lt (Nat.div_le_self _ _) hn)
  rw [BitVec.toNat_sshiftRight_of_msb_false, ofNat_toNat_small hn, Nat.shiftRight_eq_div_pow]
  rw [BitVec.msb_eq_false_iff_two_mul_lt, ofNat_toNat_small hn]
  omega

theorem ofNat_shiftLeft (n k : Nat) : BitVec.ofNat 64 n <<< k = .ofNat 64 (n * 2 ^ k) := by
  apply BitVec.eq_of_toNat_eq
  rw [BitVec.toNat_shiftLeft, BitVec.toNat_ofNat, BitVec.toNat_ofNat, Nat.shiftLeft_eq, Nat.mod_mul_mod]

theorem ofNat_sub {w a b : Nat} (h : b ≤ a) : BitVec.ofNat w a - BitVec.ofNat w b = .ofNat w (a - b) := by
  obtain ⟨c, rfl⟩ := Nat.exists_eq_add_of_le' h
  rw [BitVec.ofNat_add, BitVec.add_sub_cancel, Nat.add_sub_cancel]

theorem ofNat_le {a b : Nat} (ha : a < 2 ^ 64) (hb : b < 2 ^ 64) : BitVec.ofNat 64 a ≤ .ofNat 64 b ↔ a ≤ b := by
  rw [BitVec.le_def, BitVec.toNat_ofNat, BitVec.toNat_ofNat, Nat.mod_eq_of_lt ha, Nat.mod_eq_of_lt hb]

theorem ofNat_lt {a b : Nat} (ha : a < 2 ^ 64) (hb : b < 2 ^ 64) : BitVec.ofNat 64 a < .ofNat 64 b ↔ a < b := by
  rw [BitVec.lt_def, BitVec.toNat_ofNat, BitVec.toNat_ofNat, Nat.mod_eq_of_lt ha, Nat.mod_eq_of_lt hb]

theorem ofNat_toInt_long {n : Nat} (hn : n < 2 ^ 63) : (BitVec.ofNat 64 n).toInt = n := by
  have hvalue : (BitVec.ofNat 64 n).toNat = n := by rw [BitVec.toNat_ofNat, Nat.mod_eq_of_lt (by omega)]
  rw [BitVec.toInt_eq_toNat_of_lt (by rw [hvalue]; omega), hvalue]

theorem ofNat_sle {a b : Nat} (ha : a < 2 ^ 63) (hb : b < 2 ^ 63) : (BitVec.ofNat 64 a).sle (.ofNat 64 b) = decide (a ≤ b) := by
  rw [BitVec.sle_eq_decide, ofNat_toInt_long ha, ofNat_toInt_long hb]
  exact decide_eq_decide.2 Int.ofNat_le

theorem ofNat_slt {a b : Nat} (ha : a < 2 ^ 63) (hb : b < 2 ^ 63) : (BitVec.ofNat 64 a).slt (.ofNat 64 b) = decide (a < b) := by
  rw [BitVec.slt_eq_decide, ofNat_toInt_long ha, ofNat_toInt_long hb]
  exact decide_eq_decide.2 Int.ofNat_lt

end Numbers

/-! ## Reads -/

section Reads
variable {d : Partition σ} {buf : Block} {io : Io σ}

/-- What a read within the partition comes to. -/
inductive Read (d : Partition σ) (pos n : Nat) (io : Io σ) : Bool × Block × Io σ → Prop where
  | delivered {b : Block} {dev : σ} (bytes : ∀ i < n, b i = d.bytes (pos + i)) : Read d pos n io (true, b, ⟨io.errnum, dev⟩)
  | failed {b : Block} {io' : Io σ} (lost : io'.Lost d) : Read d pos n io (false, b, io')

theorem devread_read (sector off n : Nat) (hn : 0 < n) (hsmall : off + n < 2 ^ 31) (hin : 512 * sector + off + n ≤ 512 * d.partLength.toNat)
    (buf : Block) (io : Io σ) : Read d (512 * sector + off) n io (devread d (.ofNat 32 sector) (.ofNat 32 off) (.ofNat 32 n) buf io) := by
  have hsector : (BitVec.ofNat 32 sector).toNat = sector := by
    rw [BitVec.toNat_ofNat]
    omega
  have hoff : (BitVec.ofNat 32 off).toNat = off := ofNat_toNat_small (by omega)
  have hcount : (BitVec.ofNat 32 n).toNat = n := ofNat_toNat_small (by omega)
  have hlast : (BitVec.ofNat 32 off + BitVec.ofNat 32 n - 1).toNat = off + n - 1 := by
    rw [BitVec.toNat_sub_of_le]
    · rw [BitVec.toNat_add, hoff, hcount]
      show (off + n) % 2 ^ 32 - 1 = _
      omega
    · rw [BitVec.le_def, BitVec.toNat_add, hoff, hcount]
      show 1 ≤ (off + n) % 2 ^ 32
      omega
  unfold devread
  by_cases hnegative : (BitVec.ofNat 32 sector).toInt < 0
  · rw [if_pos (.inl hnegative)]
    refine .failed ⟨GrubError.noConfusion, .inr ?_⟩
    rw [BitVec.toInt_neg_iff, hsector] at hnegative
    omega
  · have hshift : ((BitVec.ofNat 32 off + BitVec.ofNat 32 n - 1).sshiftRight 9).toNat = (off + n - 1) / 512 := by
      rw [BitVec.toNat_sshiftRight_of_msb_false, hlast, Nat.shiftRight_eq_div_pow]
      rw [BitVec.msb_eq_false_iff_two_mul_lt, hlast]
      omega
    have hinside : ¬ d.partLength ≤ BitVec.ofNat 32 sector + (BitVec.ofNat 32 off + BitVec.ofNat 32 n - 1).sshiftRight 9 := by
      rw [BitVec.le_def, BitVec.toNat_add, hsector, hshift]
      omega
    rw [if_neg (not_or.2 ⟨hnegative, hinside⟩), hsector, hoff, hcount]
    generalize hread : d.rawread io.dev (512 * sector + off) n buf = read
    obtain ⟨_ | left, dev⟩ := read
    · exact .delivered fun i hi => if_pos hi
    · exact .failed ⟨d.fault.2, .inl ⟨_, _, _, _, by rw [hread]; rfl⟩⟩

/-- Nothing is read, behind the first sector. -/
theorem devread_none (sector off : Nat) (hbehind : 0 < sector) (hsmall : off < 2 ^ 31) (hin : 512 * sector + off < 512 * d.partLength.toNat)
    (buf : Block) (io : Io σ) : Read d (512 * sector + off) 0 io (devread d (.ofNat 32 sector) (.ofNat 32 off) (.ofNat 32 0) buf io) := by
  have hlength := d.partLength.isLt
  have hsector : (BitVec.ofNat 32 sector).toNat = sector := by
    rw [BitVec.toNat_ofNat]
    omega
  unfold devread
  by_cases hnegative : (BitVec.ofNat 32 sector).toInt < 0
  · rw [if_pos (.inl hnegative)]
    refine .failed ⟨GrubError.noConfusion, .inr ?_⟩
    rw [BitVec.toInt_neg_iff, hsector] at hnegative
    omega
  · have hinside : ¬ d.partLength ≤ BitVec.ofNat 32 sector + (BitVec.ofNat 32 off + BitVec.ofNat 32 0 - 1).sshiftRight 9 := by
      rw [show BitVec.ofNat 32 0 = 0#32 from rfl, BitVec.add_zero, BitVec.le_def, BitVec.toNat_add, hsector]
      cases off with
      | zero =>
        show ¬ d.partLength.toNat ≤ (sector + (2 ^ 32 - 1)) % 2 ^ 32
        omega
      | succ k =>
        have hlast : (BitVec.ofNat 32 (k + 1) - 1).toNat = k := by
          rw [show (1 : Word) = .ofNat 32 1 from rfl, ofNat_sub (Nat.le_add_left 1 k), Nat.add_sub_cancel, ofNat_toNat_small (by omega)]
        rw [BitVec.toNat_sshiftRight_of_msb_false, hlast, Nat.shiftRight_eq_div_pow]
        · omega
        · rw [BitVec.msb_eq_false_iff_two_mul_lt, hlast]
          omega
    rw [if_neg (not_or.2 ⟨hnegative, hinside⟩)]
    generalize hread : d.rawread io.dev _ _ buf = read
    obtain ⟨_ | left, dev⟩ := read
    · exact .delivered fun i hi => absurd hi (Nat.not_lt_zero i)
    · exact .failed ⟨d.fault.2, .inl ⟨_, _, _, _, by rw [hread]; rfl⟩⟩

/-- A read delivers its bytes and nothing else, or it reports an error. -/
theorem devread_cases (sector off len : Word) :
    (∃ dev, devread d sector off len buf io =
      (true, fun i => if i < len.toNat then d.bytes (512 * sector.toNat + off.toNat + i) else buf i, { io with dev := dev })) ∨
    ∃ b io', devread d sector off len buf io = (false, b, io') ∧ io'.errnum ≠ .none := by
  unfold devread
  split
  · exact .inr ⟨_, _, rfl, GrubError.noConfusion⟩
  · generalize d.rawread io.dev _ _ buf = read
    obtain ⟨_ | left, dev⟩ := read
    · exact .inl ⟨_, rfl⟩
    · exact .inr ⟨_, _, rfl, d.fault.2⟩

/-- What is delivered is what is on the disk. -/
theorem devread_bytes {sector off len : Word} {b : Block} {io' : Io σ} (h : devread d sector off len buf io = (true, b, io')) :
    ∀ i < len.toNat, b i = d.bytes (512 * sector.toNat + off.toNat + i) := by
  intro i hi
  unfold devread at h
  split at h
  · cases h
  · generalize d.rawread io.dev _ _ buf = read at h
    obtain ⟨_ | left, dev⟩ := read
    · cases h
      exact if_pos hi
    · cases h

/-- A drive that works delivers what is in the partition, and nothing else. -/
theorem devread_healthy {sector off len : Word} (h : ¬ Faulty d) :
    (devread d sector off len buf io).1 = !decide (sector.toInt < 0 ∨ d.partLength ≤ sector + (off + len - 1).sshiftRight 9) := by
  unfold devread
  split
  next hout =>
    rw [decide_eq_true hout]
    rfl
  next hin =>
    rw [decide_eq_false hin]
    generalize hread : d.rawread io.dev _ _ buf = read
    obtain ⟨_ | left, dev⟩ := read
    · rfl
    · exact absurd (.inl ⟨_, _, _, _, by rw [hread]; rfl⟩) h

/-- A read that ends behind the partition is refused. -/
theorem devread_outside {sector off n : Nat} (hn : 0 < n) (hsmall : off + n < 2 ^ 31) (hsector : sector < 2 ^ 31)
    (hout : 512 * d.partLength.toNat < 512 * sector + off + n) (buf : Block) (io : Io σ) :
    (devread d (.ofNat 32 sector) (.ofNat 32 off) (.ofNat 32 n) buf io).1 = false := by
  have hlast : (BitVec.ofNat 32 off + BitVec.ofNat 32 n - 1).toNat = off + n - 1 := by
    rw [← BitVec.ofNat_add, show (1 : Word) = .ofNat 32 1 from rfl, ofNat_sub (Nat.le_add_left_of_le hn), ofNat_toNat_small (by omega)]
  have hshift : ((BitVec.ofNat 32 off + BitVec.ofNat 32 n - 1).sshiftRight 9).toNat = (off + n - 1) / 512 := by
    rw [BitVec.toNat_sshiftRight_of_msb_false, hlast, Nat.shiftRight_eq_div_pow]
    rw [BitVec.msb_eq_false_iff_two_mul_lt, hlast]
    omega
  have hbehind : d.partLength ≤ BitVec.ofNat 32 sector + (BitVec.ofNat 32 off + BitVec.ofNat 32 n - 1).sshiftRight 9 := by
    rw [BitVec.le_def, BitVec.toNat_add, ofNat_toNat_small hsector, hshift]
    omega
  rw [devread, if_pos (.inr hbehind)]

/-- An error is not forgotten. -/
theorem devread_lost {sector off len : Word} (h : io.Lost d) : (devread d sector off len buf io).2.2.Lost d := by
  refine ⟨?_, h.2⟩
  unfold devread
  split
  · exact GrubError.noConfusion
  · split
    · exact h.1
    · exact d.fault.2

end Reads

end TrustedGrub.Fsys
