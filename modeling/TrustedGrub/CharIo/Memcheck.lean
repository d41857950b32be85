import TrustedGrub.CharIo.Number
import TrustedGrub.Disk.Read

/-!
# Which memory may be written

`memcheck` of `char_io.c`, which every copy into memory asks. Two regions may be written, below and from one
megabyte on, and `mbi` tells how long they are.
-/

namespace TrustedGrub.CharIo
open Disk (GrubError)

/-- `errnum`, and the sizes in `mbi`, in kilobytes. -/
structure Memory where
  errnum : GrubError
  memLower : Word
  memUpper : Word

/-- The comparisons of the address are signed, those with the sizes are not. -/
def wontFit (m : Memory) (addr len : Word) : Bool :=
  addr.slt 0x1000 ||
    (addr.slt 0x100000 && (m.memLower * 1024).ult (addr + len)) ||
    (!addr.slt 0x100000 && (m.memUpper * 1024).ult (addr - 0x100000 + len))

def memcheck (m : Memory) (addr len : Word) : Bool × Memory :=
  let m := if wontFit m addr len then { m with errnum := .wontFit } else m
  (m.errnum = .none, m)

/-! ## The regions -/

namespace Memory

def lowerEnd (m : Memory) : Nat := m.memLower.toNat * 1024

def upperEnd (m : Memory) : Nat := 0x100000 + m.memUpper.toNat * 1024

/-- A byte of the lower or of the upper memory. -/
def Has (m : Memory) (x : Nat) : Prop := x < m.lowerEnd ∨ 0x100000 ≤ x ∧ x < m.upperEnd

/-- A range of `n` bytes that lies in one of the regions. -/
def Holds (m : Memory) (a n : Nat) : Prop := a + n ≤ m.lowerEnd ∨ 0x100000 ≤ a ∧ a + n ≤ m.upperEnd

/-- The sizes in bytes, as far as 32 bits hold them. -/
def lowerLimit (m : Memory) : Nat := m.lowerEnd % 2 ^ 32
def upperLimit (m : Memory) : Nat := m.memUpper.toNat * 1024 % 2 ^ 32

theorem lowerLimit_le (m : Memory) : m.lowerLimit ≤ m.lowerEnd := Nat.mod_le _ _

theorem upperLimit_le (m : Memory) : 0x100000 + m.upperLimit ≤ m.upperEnd := Nat.add_le_add_left (Nat.mod_le _ _) _

end Memory

variable {m : Memory} {addr len : Word}

theorem slt_iff {b : Nat} (hb : b < 2 ^ 31) : addr.slt (.ofNat 32 b) = true ↔ addr.toNat < b ∨ 2 ^ 31 ≤ addr.toNat := by
  have haddr := addr.isLt
  rw [BitVec.slt_iff_toInt_lt, BitVec.toInt_eq_toNat_cond, BitVec.toInt_eq_toNat_cond, BitVec.toNat_ofNat]
  split <;> split <;> omega

/-- The test on the numbers themselves. -/
theorem wontFit_iff : wontFit m addr len = true ↔
    addr.toNat < 0x1000 ∨ 2 ^ 31 ≤ addr.toNat ∨
      (addr.toNat < 0x100000 ∧ m.lowerLimit < (addr.toNat + len.toNat) % 2 ^ 32) ∨
      (0x100000 ≤ addr.toNat ∧ m.upperLimit < (addr.toNat - 0x100000 + len.toNat) % 2 ^ 32) := by
  have haddr := addr.isLt
  have hlower : (m.memLower * 1024).ult (addr + len) = true ↔ m.lowerLimit < (addr.toNat + len.toNat) % 2 ^ 32 := by
    rw [BitVec.ult_iff_toNat_lt, BitVec.toNat_mul, BitVec.toNat_add]
    exact Iff.rfl
  have hupper (h : 0x100000 ≤ addr.toNat) : (m.memUpper * 1024).ult (addr - 0x100000 + len) = true ↔
      m.upperLimit < (addr.toNat - 0x100000 + len.toNat) % 2 ^ 32 := by
    have hsub : (addr - 0x100000).toNat = addr.toNat - 0x100000 := by bv_omega
    rw [BitVec.ult_iff_toNat_lt, BitVec.toNat_mul, BitVec.toNat_add, hsub]
    exact Iff.rfl
  have hfirst : addr.slt 0x1000 = true ↔ addr.toNat < 0x1000 ∨ 2 ^ 31 ≤ addr.toNat := slt_iff (by decide)
  have hmega : addr.slt 0x100000 = true ↔ addr.toNat < 0x100000 ∨ 2 ^ 31 ≤ addr.toNat := slt_iff (by decide)
  simp only [wontFit, Bool.or_eq_true, Bool.and_eq_true, Bool.not_eq_true', ← Bool.not_eq_true, hfirst, hmega, hlower]
  by_cases hlow : addr.toNat < 0x100000
  · constructor
    · omega
    · omega
  · rw [hupper (by omega)]
    omega

theorem memcheck_iff : (memcheck m addr len).1 = true ↔ m.errnum = .none ∧ wontFit m addr len = false := by
  unfold memcheck
  cases wontFit m addr len with
  | true => simp
  | false => simp

/-! ## What an answer is worth -/

/-- Where `memcheck` answers yes, the range does not pass the end of the addresses, and all of it may be written. -/
def Sound (m : Memory) (addr len : Word) : Prop :=
  (memcheck m addr len).1 = true →
    addr.toNat + len.toNat ≤ 2 ^ 32 ∧ ∀ x, addr.toNat ≤ x → x < addr.toNat + len.toNat → m.Has x

/-- It answers yes for a range that may be written. -/
def Complete (m : Memory) (addr len : Word) : Prop :=
  m.errnum = .none → 0 ≤ len.toInt → 0x1000 ≤ addr.toNat → m.Holds addr.toNat len.toNat → (memcheck m addr len).1 = true

/-- Where the end of a range is cut off at 32 bits, the rest of it is still too large. A range that ends with the
last address, and begins below one megabyte, is cut to nothing: for that one, there must be so much memory. -/
def Uncut (m : Memory) (a n : Nat) : Prop :=
  (a < 0x100000 → 2 ^ 32 ≤ a + n →
    m.lowerLimit < (a + n) % 2 ^ 32 ∨
      a + n = 2 ^ 32 ∧ (2 ^ 32 ≤ m.lowerEnd ∨ 0x100000 ≤ m.lowerEnd ∧ 2 ^ 32 ≤ m.upperEnd)) ∧
  (0x100000 ≤ a → 2 ^ 32 < a + n → m.upperLimit < (a - 0x100000 + n) % 2 ^ 32)

/-- The range begins where an address is not negative, and it ends within what 32 bits hold of the size. -/
def Within (m : Memory) (a n : Nat) : Prop :=
  a < 2 ^ 31 ∧ (a < 0x100000 → a + n ≤ m.lowerLimit) ∧ (0x100000 ≤ a → a + n ≤ 0x100000 + m.upperLimit)

theorem sound_of_uncut (h : m.errnum = .none → 0x1000 ≤ addr.toNat → addr.toNat < 2 ^ 31 → Uncut m addr.toNat len.toNat) :
    Sound m addr len := by
  intro hyes
  obtain ⟨herr, hfits⟩ := memcheck_iff.1 hyes
  rw [← Bool.not_eq_true, wontFit_iff] at hfits
  have hlower := m.lowerLimit_le
  have hupper := m.upperLimit_le
  obtain ⟨hlow, hhigh⟩ := h herr (by omega) (by omega)
  unfold Memory.Has
  rcases Nat.lt_or_ge addr.toNat 0x100000 with hmega | hmega
  · by_cases hcut : 2 ^ 32 ≤ addr.toNat + len.toNat
    · obtain hlarge | ⟨hend, hall⟩ := hlow hmega hcut
      · exact absurd (.inr (.inr (.inl ⟨hmega, hlarge⟩))) hfits
      · exact ⟨hend.le, fun x hx hlt => by omega⟩
    · refine ⟨by omega, fun x hx hlt => .inl ?_⟩
      omega
  · by_cases hcut : 2 ^ 32 < addr.toNat + len.toNat
    · exact absurd (.inr (.inr (.inr ⟨hmega, hhigh hmega hcut⟩))) hfits
    · refine ⟨by omega, fun x hx hlt => .inr ⟨by omega, ?_⟩⟩
      omega

/-- A range that is cut to nothing needs all the memory. -/
theorem all_memory {a n : Nat} (hmega : a < 0x100000) (hend : a + n = 2 ^ 32) (hall : ∀ x, a ≤ x → x < a + n → m.Has x) :
    2 ^ 32 ≤ m.lowerEnd ∨ 0x100000 ≤ m.lowerEnd ∧ 2 ^ 32 ≤ m.upperEnd := by
  have hlast := hall (2 ^ 32 - 1) (by omega) (by omega)
  have hbelow := hall 0xFFFFF (by omega) (by omega)
  unfold Memory.Has at hlast hbelow
  omega

theorem uncut_of_sound (h : Sound m addr len) (herr : m.errnum = .none) (hfirst : 0x1000 ≤ addr.toNat) (hpositive : addr.toNat < 2 ^ 31) :
    Uncut m addr.toNat len.toNat := by
  constructor
  · intro hmega hcut
    by_cases hlarge : m.lowerLimit < (addr.toNat + len.toNat) % 2 ^ 32
    · exact .inl hlarge
    · have hfits : wontFit m addr len = false := by
        rw [← Bool.not_eq_true, wontFit_iff]
        omega
      obtain ⟨hle, hall⟩ := h (memcheck_iff.2 ⟨herr, hfits⟩)
      have hend : addr.toNat + len.toNat = 2 ^ 32 := Nat.le_antisymm hle hcut
      exact .inr ⟨hend, all_memory hmega hend hall⟩
  · intro hmega hcut
    by_contra hsmall
    have hfits : wontFit m addr len = false := by
      rw [← Bool.not_eq_true, wontFit_iff]
      omega
    have hle := (h (memcheck_iff.2 ⟨herr, hfits⟩)).1
    omega

theorem toInt_nonneg : 0 ≤ len.toInt ↔ len.toNat < 2 ^ 31 := by
  have hlen := len.isLt
  rw [BitVec.toInt_eq_toNat_cond]
  split <;> omega

/-- On a range that is not negative, the test is the one for `Within`. -/
theorem wontFit_within (hlen : len.toNat < 2 ^ 31) (hfirst : 0x1000 ≤ addr.toNat) :
    wontFit m addr len = false ↔ Within m addr.toNat len.toNat := by
  rw [← Bool.not_eq_true, wontFit_iff]
  unfold Within
  constructor
  · intro h
    refine ⟨by omega, fun hmega => ?_, fun hmega => ?_⟩
    · omega
    · omega
  · omega

/-- **What `memcheck` guards.** Its word is good, and no range is refused that may be written, when a sum that does
not fit into 32 bits is seen to be too large, and when what may be written has the addresses and the sizes that it
can compare. -/
theorem memcheck_guards_iff (m : Memory) (addr len : Word) :
    Sound m addr len ∧ Complete m addr len ↔
      (m.errnum = .none → 0x1000 ≤ addr.toNat → addr.toNat < 2 ^ 31 → Uncut m addr.toNat len.toNat) ∧
        (m.errnum = .none → 0 ≤ len.toInt → 0x1000 ≤ addr.toNat → m.Holds addr.toNat len.toNat → Within m addr.toNat len.toNat) := by
  constructor
  · rintro ⟨hsound, hcomplete⟩
    refine ⟨uncut_of_sound hsound, fun herr hlen hfirst hholds => ?_⟩
    have hfits := (memcheck_iff.1 (hcomplete herr hlen hfirst hholds)).2
    exact (wontFit_within (toInt_nonneg.1 hlen) hfirst).1 hfits
  · rintro ⟨huncut, hwithin⟩
    refine ⟨sound_of_uncut huncut, fun herr hlen hfirst hholds => memcheck_iff.2 ⟨herr, ?_⟩⟩
    exact (wontFit_within (toInt_nonneg.1 hlen) hfirst).2 (hwithin herr hlen hfirst hholds)

/-- With 640 kilobytes below and 63 megabytes above, a negative length is let through. -/
theorem memcheck_passes_negative : ¬ (Sound ⟨.none, 640, 64512⟩ 0x2000 0xFFFFF000 ∧ Complete ⟨.none, 640, 64512⟩ 0x2000 0xFFFFF000) := by
  rintro ⟨hsound, -⟩
  have hle := (hsound (by decide)).1
  revert hle
  decide

/-- The test as the readers of files make it. -/
theorem wontFit_disk {σ ι : Type} (st : Disk.State σ ι) :
    Disk.memcheck st addr.toInt len.toInt = !wontFit ⟨st.errnum, .ofNat 32 st.memLower, .ofNat 32 st.memUpper⟩ addr len := by
  have haddr := addr.isLt
  have hlen := len.isLt
  rw [Bool.eq_iff_iff, Bool.not_eq_true', ← Bool.not_eq_true, wontFit_iff]
  unfold Disk.memcheck Memory.lowerLimit Memory.upperLimit Memory.lowerEnd
  simp only [Bool.not_eq_true', ← Bool.not_eq_true, Bool.or_eq_true, Bool.and_eq_true, decide_eq_true_eq, BitVec.toNat_ofNat]
  rw [BitVec.toInt_eq_toNat_cond, BitVec.toInt_eq_toNat_cond]
  split <;> split <;> omega

end TrustedGrub.CharIo
