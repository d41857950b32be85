import TrustedGrub.Sha1.Fips180
import Mathlib.Tactic.Ring
import Mathlib.Data.Nat.Bitwise

/-!
# The NTFS run list reader

`get_next_run`, `rewind_run_list` and `get_run` of `fsys_ntfs.c`. A run list is a
sequence of mapping pairs in an attribute: a header byte with two widths, the length of
the run, and the distance of its first cluster from that of the run before. The reader
keeps its place between two requests.
-/

namespace TrustedGrub.Ntfs
open Fips180 (Byte)

abbrev Mem := Nat → Byte

/-- What an `int` keeps of a number. -/
def int32 (x : Int) : Int := Int.bmod x (2 ^ 32)

/-- `RUNL`. -/
structure Runl where
  start : Nat
  ptr : Nat
  svcn : Int
  evcn : Int
  vcn : Int
  cnum0 : Int
  cnum : Int
  clen : Int
deriving DecidableEq

/-- `rewind_run_list`. -/
def Runl.rewind (runl : Runl) : Runl :=
  { runl with vcn := runl.svcn, ptr := runl.start, cnum0 := 0, cnum := 0, clen := 0 }

/-- `while (n--) { acc += v * *ptr++; v <<= 8; }`: the number and the `v` left behind. -/
def addBytes (mem : Mem) : Nat → Nat → Int → Int → Int × Int
  | 0, _, acc, v => (acc, v)
  | n + 1, ptr, acc, v => addBytes mem n (ptr + 1) (int32 (acc + int32 (v * (mem ptr).toNat))) (int32 (v * 0x100))

/-- `if (c & (v >> 1)) c -= v;` -/
def signExtend (c v : Int) : Int :=
  if BitVec.ofInt 32 c &&& (BitVec.ofInt 32 v).sshiftRight 1 ≠ 0 then int32 (c - v) else c

/-- The bytes of the length of the run at `ptr`. -/
def lengthWidth (mem : Mem) (ptr : Nat) : Nat := (mem ptr).toNat % 0x10
/-- The bytes of its offset. -/
def offsetWidth (mem : Mem) (ptr : Nat) : Nat := (mem ptr).toNat / 0x10

/-- `get_next_run`. -/
def getNextRun (mem : Mem) (runl : Runl) : Bool × Runl :=
  let runl := { runl with vcn := int32 (runl.vcn + runl.clen) }
  if runl.evcn < runl.vcn then (false, runl)
  else
    let n := lengthWidth mem runl.ptr
    let o := offsetWidth mem runl.ptr
    let clen := (addBytes mem n (runl.ptr + 1) 0 1).1
    let ptr := runl.ptr + 1 + n
    if o = 0 then (true, { runl with ptr, clen, cnum := 0 })
    else
      let (c, v) := addBytes mem o ptr 0 1
      let cnum0 := int32 (runl.cnum0 + signExtend c v)
      (true, { runl with ptr := ptr + o, clen, cnum0, cnum := cnum0 })

/-- `while (rl->vcn + rl->clen <= vcn) if (get_next_run (rl) == 0) return 0;` -/
def getRunLoop (mem : Mem) (vcn : Int) : Nat → Runl → Option (Bool × Runl)
  | 0, _ => none
  | fuel + 1, rl =>
    if int32 (rl.vcn + rl.clen) ≤ vcn then
      let (more, rl) := getNextRun mem rl
      if more then getRunLoop mem vcn fuel rl else some (false, rl)
    else some (true, rl)

/-- `get_run (rl, vcn, &cl, &len)`: the cluster, zero for a hole, and the length. -/
def getRun (mem : Mem) (fuel : Nat) (rl : Runl) (vcn : Int) : Option (Option (Int × Int) × Runl) :=
  if rl.evcn < vcn then some (none, rl)
  else
    let rl := if vcn < rl.vcn then (getNextRun mem rl.rewind).2 else rl
    match getRunLoop mem vcn fuel rl with
    | none => none
    | some (false, rl) => some (none, rl)
    | some (true, rl) =>
      some (some (if rl.cnum = 0 then 0 else int32 (rl.cnum + vcn - rl.vcn), int32 (rl.clen - vcn + rl.vcn)), rl)

/-! ## Numbers of any width -/

/-- The number that `n` bytes are, the lowest first. -/
def leValue (mem : Mem) : Nat → Nat → Nat
  | _, 0 => 0
  | ptr, n + 1 => (mem ptr).toNat + 0x100 * leValue mem (ptr + 1) n

/-- The number that they are in two's complement. -/
def signedValue (mem : Mem) (ptr n : Nat) : Int :=
  if 2 * leValue mem ptr n < 0x100 ^ n then leValue mem ptr n else leValue mem ptr n - 0x100 ^ n

theorem leValue_lt (mem : Mem) (ptr n : Nat) : leValue mem ptr n < 0x100 ^ n := by
  induction n generalizing ptr with
  | zero => exact Nat.one_pos
  | succ n ih =>
    have := ih (ptr + 1)
    have hbyte := (mem ptr).isLt
    simp only [leValue, Nat.pow_succ]
    omega

theorem int32_int32 (x : Int) : int32 (int32 x) = int32 x := Int.bmod_bmod

theorem int32_of_lt {x : Int} (hlo : -2 ^ 31 ≤ x) (hhi : x < 2 ^ 31) : int32 x = x := by
  unfold int32
  rw [Int.bmod_def]
  norm_num
  omega

theorem int32_add_left (x y : Int) : int32 (int32 x + y) = int32 (x + y) := Int.bmod_add_bmod

theorem int32_add_right (x y : Int) : int32 (x + int32 y) = int32 (x + y) := Int.add_bmod_bmod

theorem int32_mul_left (x y : Int) : int32 (int32 x * y) = int32 (x * y) := Int.bmod_mul_bmod

theorem addBytes_eq (mem : Mem) (n : Nat) : ∀ (ptr : Nat) {acc v : Int}, int32 acc = acc → int32 v = v →
    addBytes mem n ptr acc v = (int32 (acc + v * leValue mem ptr n), int32 (v * 0x100 ^ n)) := by
  induction n with
  | zero =>
    intro ptr acc v hacc hv
    simp only [addBytes, leValue, Nat.cast_zero, mul_zero, add_zero, pow_zero, mul_one, hacc, hv]
  | succ n ih =>
    intro ptr acc v hacc hv
    rw [addBytes, ih _ (int32_int32 _) (int32_int32 _)]
    simp only [leValue]
    congr 1
    · rw [int32_add_left]
      calc int32 (acc + int32 (v * (mem ptr).toNat) + int32 (v * 0x100) * leValue mem (ptr + 1) n)
          = int32 (acc + int32 (v * (mem ptr).toNat) + v * 0x100 * leValue mem (ptr + 1) n) := by
            rw [← int32_add_right _ (int32 (v * 0x100) * _), int32_mul_left, int32_add_right]
        _ = int32 (acc + v * (mem ptr).toNat + v * 0x100 * leValue mem (ptr + 1) n) := by
            rw [add_right_comm, int32_add_right, add_right_comm]
        _ = int32 (acc + v * ((mem ptr).toNat + 0x100 * leValue mem (ptr + 1) n : Nat)) := by
            push_cast
            ring_nf
    · rw [int32_mul_left]
      ring_nf

theorem int32_pow {n : Nat} (h : 4 ≤ n) : int32 (0x100 ^ n) = 0 := by
  obtain ⟨k, rfl⟩ := Nat.exists_eq_add_of_le h
  rw [pow_add]
  exact Int.bmod_eq_zero_of_dvd (Dvd.intro _ rfl)

/-- The sign bit of a number below twice its value. -/
theorem and_signBit_ne_zero {u k : Nat} (hk : k < 32) (hu : u < 2 ^ (k + 1)) :
    BitVec.ofInt 32 u &&& BitVec.ofNat 32 (2 ^ k) ≠ 0 ↔ 2 ^ k ≤ u := by
  have hpow : 2 ^ (k + 1) ≤ 2 ^ 32 := Nat.pow_le_pow_right (by decide) (by omega)
  rw [BitVec.ofInt_natCast, ne_eq, ← BitVec.toNat_inj, BitVec.toNat_and, BitVec.toNat_ofNat, BitVec.toNat_ofNat,
    Nat.mod_eq_of_lt (by omega), Nat.mod_eq_of_lt (by omega), Nat.and_two_pow, Nat.testBit_eq_decide_div_mod_eq]
  have hquot : u / 2 ^ k = 0 ∧ u < 2 ^ k ∨ u / 2 ^ k = 1 ∧ 2 ^ k ≤ u := by
    rcases Nat.lt_or_ge u (2 ^ k) with h | h
    · exact .inl ⟨Nat.div_eq_of_lt h, h⟩
    · exact .inr ⟨Nat.div_eq_of_lt_le (by omega) (by omega), h⟩
  rcases hquot with ⟨h, hlt⟩ | ⟨h, hle⟩
  · simp [h, hlt]
  · simp [h, hle]

theorem int32_sub_pow {n : Nat} (h : 4 ≤ n) (x : Int) : int32 (x - 0x100 ^ n) = int32 x := by
  obtain ⟨k, rfl⟩ := Nat.exists_eq_add_of_le h
  rw [pow_add]
  exact Int.sub_mul_bmod_self_left x (2 ^ 32) (0x100 ^ k)

/-- The sign extension of a number of one to three bytes, whose `v` an `int` still holds. -/
theorem signExtend_of_lt {u k : Nat} (hk : k < 30) (hu : u < 2 ^ (k + 1)) :
    signExtend (int32 u) (int32 (2 ^ (k + 1))) = int32 (if 2 * u < 2 ^ (k + 1) then u else u - 2 ^ (k + 1)) := by
  have hpow : 2 ^ (k + 1) < 2 ^ 31 := Nat.pow_lt_pow_right (by decide) (by omega)
  have hcast : (2 : Int) ^ (k + 1) = (2 ^ (k + 1) : Nat) := by push_cast; rfl
  have hu32 : int32 u = u := int32_of_lt (by omega) (by omega)
  have hv32 : int32 (2 ^ (k + 1)) = (2 ^ (k + 1) : Nat) := by
    rw [hcast]
    apply int32_of_lt
    all_goals omega
  have hshift : (BitVec.ofInt 32 (2 ^ (k + 1) : Nat)).sshiftRight 1 = BitVec.ofNat 32 (2 ^ k) := by
    have hmsb : (BitVec.ofInt 32 (2 ^ (k + 1) : Nat)).msb = false := by
      rw [BitVec.ofInt_natCast, BitVec.msb_eq_false_iff_two_mul_lt, BitVec.toNat_ofNat]
      omega
    apply BitVec.eq_of_toNat_eq
    rw [BitVec.sshiftRight_eq_of_msb_false hmsb, BitVec.ofInt_natCast, BitVec.toNat_ushiftRight,
      BitVec.toNat_ofNat, BitVec.toNat_ofNat, Nat.shiftRight_eq_div_pow]
    omega
  unfold signExtend
  rw [hu32, hv32, hshift]
  have hsign := and_signBit_ne_zero (by omega : k < 32) hu
  rcases Nat.lt_or_ge u (2 ^ k) with h | h
  · rw [if_neg (by rw [hsign]; omega), if_pos (by omega), hu32]
  · rw [if_pos (hsign.2 h), if_neg (by omega), hcast]

/-- The offset that the loop and the sign extension make of the bytes. -/
theorem signExtend_addBytes (mem : Mem) {n : Nat} (hn : 0 < n) (ptr : Nat) :
    signExtend (addBytes mem n ptr 0 1).1 (addBytes mem n ptr 0 1).2 = int32 (signedValue mem ptr n) := by
  have hu := leValue_lt mem ptr n
  rw [addBytes_eq mem n ptr (by decide) (by decide)]
  simp only [zero_add, one_mul]
  unfold signedValue
  generalize leValue mem ptr n = u at hu
  rcases Nat.lt_or_ge n 4 with hsmall | hlarge
  · have h256 : 0x100 ^ n = 2 ^ (8 * n - 1 + 1) := by
      rw [show 8 * n - 1 + 1 = 8 * n by omega, Nat.pow_mul]
    have h256' : (0x100 : Int) ^ n = 2 ^ (8 * n - 1 + 1) := by exact_mod_cast h256
    rw [h256] at hu
    rw [h256, h256']
    exact signExtend_of_lt (by omega) hu
  · -- the shifted `v` is gone
    have hzero : BitVec.ofInt 32 (int32 (0x100 ^ n)) = 0 := by
      rw [int32_pow hlarge]
      rfl
    unfold signExtend
    rw [hzero, if_neg (by simp)]
    split
    · rfl
    · exact (int32_sub_pow hlarge _).symm

end TrustedGrub.Ntfs
