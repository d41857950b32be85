import TrustedGrub.Lib.Coverage
import TrustedGrub.Sha1.Fips180
import Mathlib.Algebra.Group.Nat.Defs
import Mathlib.Data.BitVec

/-!
# The memory that is available from an address on

`mmap_avail_at` of `common.c`, over the address ranges that the BIOS has reported. They lie in
memory one after the other, each with its size in front.
-/

namespace TrustedGrub.Common
open Fips180 (Byte Word)
open Coverage (Covered IsRun)

/-! ## The ranges in memory -/

abbrev Mem := Word → Byte

def dword (mem : Mem) (addr : Word) : Word := mem (addr + 3) ++ mem (addr + 2) ++ mem (addr + 1) ++ mem addr

def qword (mem : Mem) (addr : Word) : BitVec 64 := dword mem (addr + 4) ++ dword mem addr

/-- `struct AddrRangeDesc`. -/
structure AddrRangeDesc where
  size : Word
  baseAddr : BitVec 64
  length : BitVec 64
  type : Word

/-- `MB_ARD_MEMORY`. -/
def ardMemory : Word := 1

def descAt (mem : Mem) (addr : Word) : AddrRangeDesc :=
  ⟨dword mem addr, qword mem (addr + 4), qword mem (addr + 12), dword mem (addr + 20)⟩

/-- What `mbi` says of the ranges. -/
structure Mbi where
  mmapAddr : Word
  mmapLength : Word

/-! ## The loops -/

/-- The range is available, begins no later than at `top`, and ends behind it. -/
def AddrRangeDesc.reaches (d : AddrRangeDesc) (top : BitVec 64) : Bool :=
  d.type = ardMemory ∧ d.baseAddr ≤ top ∧ top < d.baseAddr + d.length

/-- The body of the inner loop. There is no place for so many ranges that `cont` comes round to zero. -/
def AddrRangeDesc.look (d : AddrRangeDesc) (top : BitVec 64) (cont : Nat) : BitVec 64 × Nat :=
  if d.reaches top then (d.baseAddr + d.length, cont + 1) else (top, cont)

/-- The inner loop. -/
def scan (mem : Mem) (limit : Word) : Nat → Word → BitVec 64 → Nat → Option (BitVec 64 × Nat)
  | 0, _, _, _ => none
  | fuel + 1, addr, top, cont =>
    if addr < limit then
      let d := descAt mem addr
      let (top, cont) := d.look top cont
      scan mem limit fuel (addr + (d.size + 4)) top cont
    else some (top, cont)

/-- The outer loop. The inner one may make `passes`. -/
def availTop (mem : Mem) (mbi : Mbi) (passes : Nat) : Nat → BitVec 64 → Option (BitVec 64)
  | 0, _ => none
  | fuel + 1, top => do
    let (top, cont) ← scan mem (mbi.mmapAddr + mbi.mmapLength) passes mbi.mmapAddr top 0
    if cont ≠ 0 then availTop mem mbi passes fuel top else some top

/-- `mmap_avail_at`. -/
def mmapAvailAt (mem : Mem) (mbi : Mbi) (fuel : Nat) (bottom : Word) : Option Word := do
  let top ← availTop mem mbi fuel fuel (bottom.setWidth 64)
  -- For now, GRUB assumes 32bits addresses, so...
  let top := if 0xFFFFFFFF < top then 0xFFFFFFFF else top
  some (top.setWidth 32 - bottom)

/-! ## What is available -/

/-- The ranges lie at the address one after the other. -/
def Laid (mem : Mem) : Word → List AddrRangeDesc → Prop
  | _, [] => True
  | addr, d :: descs => descAt mem addr = d ∧ Laid mem (addr + (d.size + 4)) descs

def totalSize (descs : List AddrRangeDesc) : Nat := (descs.map fun d => d.size.toNat + 4).sum

/-- The list of ranges, as `init_bios_info` has put it together. -/
structure Mapped (mem : Mem) (mbi : Mbi) (descs : List AddrRangeDesc) : Prop where
  laid : Laid mem mbi.mmapAddr descs
  length : mbi.mmapLength.toNat = totalSize descs
  inside : mbi.mmapAddr.toNat + mbi.mmapLength.toNat < 2 ^ 32

/-- From where on and up to where a range is. -/
def AddrRangeDesc.range (d : AddrRangeDesc) : Nat × Nat := (d.baseAddr.toNat, d.baseAddr.toNat + d.length.toNat)

/-- The ranges that are available. -/
def available (descs : List AddrRangeDesc) : List AddrRangeDesc := descs.filter fun d => d.type = ardMemory

/-- A range whose end has no place in 64 bits. -/
def AddrRangeDesc.overflows (d : AddrRangeDesc) : Bool := 2 ^ 64 ≤ d.range.2

/-- The available memory. -/
def ranges (descs : List AddrRangeDesc) : List (Nat × Nat) := (available descs).map (·.range)

/-- The available memory without the ranges whose ends have no place. -/
def endingRanges (descs : List AddrRangeDesc) : List (Nat × Nat) := ((available descs).filter fun d => !d.overflows).map (·.range)

def maxTop : Nat := 0xFFFFFFFF

/-- The length of the largest interval from `bottom` on that is available, within 32 bits. -/
def IsAvailable (descs : List AddrRangeDesc) (bottom length : Nat) : Prop :=
  ∃ top, IsRun (ranges descs) bottom top ∧ length = min top maxTop - bottom

/-- No range whose end has no place is come to from `bottom` on, unless the others reach to the end of the 32 bits. -/
def Unreached (descs : List AddrRangeDesc) (bottom : Nat) : Prop :=
  ∀ d ∈ available descs, d.overflows = true →
    (∃ x, bottom ≤ x ∧ x < d.baseAddr.toNat ∧ ¬ Covered (endingRanges descs) x) ∨
      ∀ x, bottom ≤ x → x < maxTop → Covered (endingRanges descs) x

/-! ## The inner loop over the list -/

variable {mem : Mem} {mbi : Mbi} {descs descs' : List AddrRangeDesc} {d : AddrRangeDesc} {addr limit bottom : Word}
  {top top' : BitVec 64} {cont cont' fuel passes : Nat}

/-- A pass over the list. -/
def pass (descs : List AddrRangeDesc) (top : BitVec 64) (cont : Nat) : BitVec 64 × Nat :=
  descs.foldl (fun s d => d.look s.1 s.2) (top, cont)

theorem scan_laid (h : Laid mem addr descs) (hend : addr.toNat + totalSize descs = limit.toNat) (hfuel : descs.length < fuel) :
    scan mem limit fuel addr top cont = some (pass descs top cont) := by
  induction descs generalizing addr top cont fuel with
  | nil =>
    obtain ⟨fuel, rfl⟩ := Nat.exists_eq_succ_of_ne_zero (Nat.ne_zero_of_lt hfuel)
    have hstop : ¬ addr < limit := by
      simp [totalSize] at hend
      bv_omega
    simp only [scan, if_neg hstop]
    rfl
  | cons d descs ih =>
    obtain ⟨fuel, rfl⟩ := Nat.exists_eq_succ_of_ne_zero (Nat.ne_zero_of_lt hfuel)
    obtain ⟨hdesc, hrest⟩ := h
    have htotal : totalSize (d :: descs) = d.size.toNat + 4 + totalSize descs := by simp [totalSize]
    have hlimit := limit.isLt
    have hgo : addr < limit := by
      rw [htotal] at hend
      bv_omega
    have hsize : (addr + (d.size + 4)).toNat = addr.toNat + (d.size.toNat + 4) := by
      rw [BitVec.toNat_add, BitVec.toNat_add]
      simp
      omega
    simp only [scan, if_pos hgo, hdesc]
    rw [ih hrest (by omega) (Nat.lt_of_succ_lt_succ hfuel)]
    rfl

theorem AddrRangeDesc.overflows_eq_false : d.overflows = false ↔ d.baseAddr.toNat + d.length.toNat < 2 ^ 64 := by
  unfold overflows
  rw [decide_eq_false_iff_not, Nat.not_le]
  rfl

/-- A range whose end has no place is taken for one that ends before it begins. -/
theorem AddrRangeDesc.reaches_iff (d : AddrRangeDesc) (top : BitVec 64) :
    d.reaches top = true ↔ d.type = ardMemory ∧ d.overflows = false ∧ d.range.1 ≤ top.toNat ∧ top.toNat < d.range.2 := by
  have hbase := d.baseAddr.isLt
  have hlength := d.length.isLt
  simp only [reaches, overflows_eq_false, range, decide_eq_true_eq, BitVec.le_def, BitVec.lt_def, BitVec.toNat_add]
  refine and_congr_right fun _ => ?_
  omega

theorem AddrRangeDesc.look_of_reaches (h : d.reaches top = true) :
    (d.look top cont).1.toNat = d.range.2 ∧ (d.look top cont).2 = cont + 1 := by
  have hend := ((d.reaches_iff top).1 h).2.1
  rw [look, if_pos h]
  refine ⟨?_, rfl⟩
  rw [BitVec.toNat_add]
  apply Nat.mod_eq_of_lt
  exact overflows_eq_false.1 hend

theorem AddrRangeDesc.look_of_not_reaches (h : ¬ d.reaches top = true) : d.look top cont = (top, cont) := if_neg h

theorem endingRanges_cons (d : AddrRangeDesc) (descs : List AddrRangeDesc) :
    endingRanges (d :: descs) = if d.type = ardMemory ∧ d.overflows = false then d.range :: endingRanges descs else endingRanges descs := by
  by_cases htype : d.type = ardMemory
  · cases hover : d.overflows <;> simp [endingRanges, available, htype, hover]
  · simp [endingRanges, available, htype]

theorem pass_cons (d : AddrRangeDesc) (descs : List AddrRangeDesc) (top : BitVec 64) (cont : Nat) :
    pass (d :: descs) top cont = pass descs (d.look top cont).1 (d.look top cont).2 := rfl

/-- A pass scans the ranges whose ends have a place. -/
theorem pass_toNat (descs : List AddrRangeDesc) (top : BitVec 64) (cont : Nat) :
    (pass descs top cont).1.toNat = Coverage.scan (endingRanges descs) top.toNat := by
  induction descs generalizing top cont with
  | nil => rfl
  | cons d descs ih =>
    rw [pass_cons, ih, endingRanges_cons]
    by_cases hreaches : d.reaches top = true
    · obtain ⟨htype, hover, hin⟩ := (d.reaches_iff top).1 hreaches
      rw [(AddrRangeDesc.look_of_reaches hreaches).1, if_pos ⟨htype, hover⟩, Coverage.scan, Coverage.scan, List.foldl_cons]
      rw [Coverage.extend, if_pos hin]
    · rw [AddrRangeDesc.look_of_not_reaches hreaches]
      split_ifs with hkept
      · have hout : ¬ (d.range.1 ≤ top.toNat ∧ top.toNat < d.range.2) := fun hin =>
          hreaches ((d.reaches_iff top).2 ⟨hkept.1, hkept.2, hin⟩)
        rw [Coverage.scan, Coverage.scan, List.foldl_cons, Coverage.extend, if_neg hout]
      · rfl

/-- The counter tells whether a pass has got further. -/
theorem pass_cont (descs : List AddrRangeDesc) (top : BitVec 64) (cont : Nat) :
    cont ≤ (pass descs top cont).2 ∧ ((pass descs top cont).2 = cont ↔ (pass descs top cont).1.toNat = top.toNat) := by
  induction descs generalizing top cont with
  | nil => simp [pass]
  | cons d descs ih =>
    rw [pass_cons]
    by_cases hreaches : d.reaches top = true
    · have hlook : (d.look top cont).1.toNat = d.range.2 ∧ (d.look top cont).2 = cont + 1 := AddrRangeDesc.look_of_reaches hreaches
      obtain ⟨hend, hcont⟩ := hlook
      have hbeyond := ((d.reaches_iff top).1 hreaches).2.2.2
      have hle := Coverage.le_scan (endingRanges descs) (d.look top cont).1.toNat
      obtain ⟨hmore, -⟩ := ih (d.look top cont).1 (d.look top cont).2
      rw [← pass_toNat descs (d.look top cont).1 (d.look top cont).2] at hle
      omega
    · rw [AddrRangeDesc.look_of_not_reaches hreaches]
      exact ih top cont

/-! ## The outer loop -/

/-- The run as far as the code sees it. -/
def Seen (descs : List AddrRangeDesc) (bottom top : Nat) : Prop := IsRun (endingRanges descs) bottom top

theorem availTop_ends {bottom : Nat} (h : Mapped mem mbi descs) (hreached : Coverage.Reached (endingRanges descs) bottom top.toNat) :
    ∃ top' : BitVec 64, Seen descs bottom top'.toNat ∧
      ∃ enough, ∀ passes fuel, descs.length < passes → enough ≤ fuel → availTop mem mbi passes fuel top = some top' := by
  induction hrest : 2 ^ 64 - top.toNat using Nat.strong_induction_on generalizing top with
  | h rest ih =>
    have hlimit : mbi.mmapAddr.toNat + totalSize descs = (mbi.mmapAddr + mbi.mmapLength).toNat := by
      have hinside := h.inside
      rw [BitVec.toNat_add, Nat.mod_eq_of_lt hinside, h.length]
    have hscan {passes : Nat} (hpasses : descs.length < passes) :
        scan mem (mbi.mmapAddr + mbi.mmapLength) passes mbi.mmapAddr top 0 = some (pass descs top 0) := scan_laid h.laid hlimit hpasses
    have hnat := pass_toNat descs top 0
    obtain ⟨-, hcont⟩ := pass_cont descs top 0
    by_cases hdone : (pass descs top 0).2 = 0
    · refine ⟨(pass descs top 0).1, ?_, 1, ?_⟩
      · have hsame := hcont.1 hdone
        rw [hsame] at hnat ⊢
        exact hreached.isRun hnat.symm
      · intro passes fuel hpasses hfuel
        obtain ⟨fuel, rfl⟩ := Nat.exists_eq_add_of_le' hfuel
        simp only [availTop, hscan hpasses, Option.bind_eq_bind, Option.bind_some, hdone, ne_eq, not_true_eq_false, if_false]
    · have hfurther : top.toNat < (pass descs top 0).1.toNat := by
        have hle := Coverage.le_scan (endingRanges descs) top.toNat
        have hne := mt hcont.2 hdone
        omega
      have hreached' : Coverage.Reached (endingRanges descs) bottom (pass descs top 0).1.toNat := by
        rw [hnat]
        exact hreached.scan fun _ hrange => hrange
      obtain ⟨top', hseen, enough, henough⟩ := ih _ (by omega) hreached' rfl
      refine ⟨top', hseen, enough + 1, ?_⟩
      intro passes fuel hpasses hfuel
      obtain ⟨fuel, rfl⟩ := Nat.exists_eq_add_of_le' (Nat.le_trans (Nat.le_add_left 1 enough) hfuel)
      simp only [availTop, hscan hpasses, Option.bind_eq_bind, Option.bind_some, ne_eq, hdone, not_false_eq_true, if_true]
      exact henough passes fuel hpasses (by omega)

/-- The answer is the length of the run that the code sees. -/
theorem mmapAvailAt_ends (h : Mapped mem mbi descs) (bottom : Word) :
    ∃ top, Seen descs bottom.toNat top ∧ ∃ r : Word, r.toNat = min top maxTop - bottom.toNat ∧
      ∃ enough, ∀ fuel ≥ enough, mmapAvailAt mem mbi fuel bottom = some r := by
  have hlt := bottom.isLt
  have hbottom : (bottom.setWidth 64).toNat = bottom.toNat := by
    rw [BitVec.toNat_setWidth]
    omega
  have hreached : Coverage.Reached (endingRanges descs) bottom.toNat (bottom.setWidth 64).toNat := by
    rw [hbottom]
    exact Coverage.Reached.refl _ _
  obtain ⟨top, hseen, enough, henough⟩ := availTop_ends h hreached
  have hle := hseen.le
  refine ⟨top.toNat, hseen, (if 0xFFFFFFFF < top then 0xFFFFFFFF else top).setWidth 32 - bottom, ?_, max enough (descs.length + 1), ?_⟩
  · unfold maxTop
    split_ifs with hlarge
    · bv_omega
    · bv_omega
  · intro fuel hfuel
    rw [mmapAvailAt, henough fuel fuel (by omega) (by omega)]
    rfl

/-! ## What the answer is -/

theorem mem_ranges {range : Nat × Nat} : range ∈ ranges descs ↔ ∃ d ∈ available descs, d.range = range := by
  simp [ranges]

theorem mem_endingRanges {range : Nat × Nat} :
    range ∈ endingRanges descs ↔ ∃ d ∈ available descs, d.overflows = false ∧ d.range = range := by
  simp [endingRanges, and_assoc]

theorem endingRanges_subset : ∀ range ∈ endingRanges descs, range ∈ ranges descs := by
  intro range hrange
  obtain ⟨d, hd, -, rfl⟩ := mem_endingRanges.1 hrange
  exact mem_ranges.2 ⟨d, hd, rfl⟩

/-- The run that the code sees is the right one exactly where no range that it misses is reached. -/
theorem seen_right_iff {bottom top : Nat} (hseen : Seen descs bottom top) (hbottom : bottom ≤ maxTop) :
    IsAvailable descs bottom (min top maxTop - bottom) ↔ Unreached descs bottom := by
  have hsub : ∀ range ∈ endingRanges descs, range ∈ ranges descs := endingRanges_subset
  have hreached := hseen.toReached.mono hsub
  constructor
  · rintro ⟨whole, hrun, hlength⟩ d hd hover
    have hle := hrun.le
    have hfrom := hseen.le
    obtain hshort | hlong := Nat.lt_or_ge top maxTop
    · left
      obtain rfl : whole = top := by omega
      refine ⟨whole, hle, ?_, hseen.stops⟩
      by_contra hreaches
      apply hrun.stops
      refine ⟨d.range, mem_ranges.2 ⟨d, hd, rfl⟩, Nat.le_of_not_lt hreaches, ?_⟩
      have hbeyond : 2 ^ 64 ≤ d.range.2 := of_decide_eq_true hover
      unfold maxTop at hshort
      omega
    · right
      exact fun x hlo hhi => hseen.covered x hlo (hhi.trans_le hlong)
  · intro hunreached
    obtain hshort | hlong := Nat.lt_or_ge top maxTop
    · refine ⟨top, ⟨hreached, ?_⟩, rfl⟩
      rintro ⟨range, hrange, hlo, hhi⟩
      obtain ⟨d, hd, rfl⟩ := mem_ranges.1 hrange
      cases hover : d.overflows with
      | false => exact hseen.stops ⟨d.range, mem_endingRanges.2 ⟨d, hd, hover, rfl⟩, hlo, hhi⟩
      | true =>
        obtain ⟨x, hfrom, hbefore, hfree⟩ | hall := hunreached d hd hover
        · exact hfree (hseen.covered x hfrom (hbefore.trans_le hlo))
        · exact hseen.stops (hall top hseen.le hshort)
    · obtain ⟨whole, hrun⟩ := Coverage.exists_isRun (ranges descs) bottom
      have hle := hrun.reached_le hreached
      exact ⟨whole, hrun, by omega⟩

theorem Seen.perm {bottom top : Nat} (h : Seen descs bottom top) (hperm : descs'.Perm descs) : Seen descs' bottom top := by
  apply h.congr
  intro range
  simp only [mem_endingRanges, available, List.mem_filter, hperm.mem_iff]

/-- `mmap_avail_at` comes to an end, with an answer that does not depend on the order of the
ranges. It is the length of the largest available interval exactly where no range whose end
has no place in 64 bits is reached. -/
theorem mmapAvailAt_right_iff (h : Mapped mem mbi descs) (bottom : Word) :
    ∃ r : Word, (∃ enough, ∀ fuel ≥ enough, mmapAvailAt mem mbi fuel bottom = some r) ∧
      (∀ mem' mbi' descs', Mapped mem' mbi' descs' → descs'.Perm descs →
        ∃ enough, ∀ fuel ≥ enough, mmapAvailAt mem' mbi' fuel bottom = some r) ∧
      (IsAvailable descs bottom.toNat r.toNat ↔ Unreached descs bottom.toNat) := by
  obtain ⟨top, hseen, r, hr, hends⟩ := mmapAvailAt_ends h bottom
  refine ⟨r, hends, ?_, ?_⟩
  · intro mem' mbi' descs' h' hperm
    obtain ⟨top', hseen', r', hr', hends'⟩ := mmapAvailAt_ends h' bottom
    obtain rfl := hseen'.unique (hseen.perm hperm)
    obtain rfl : r = r' := BitVec.eq_of_toNat_eq (hr.trans hr'.symm)
    exact hends'
  · have hlt := bottom.isLt
    rw [hr]
    apply seen_right_iff hseen
    unfold maxTop
    omega

/-- Bytes from `0x10000` on. -/
def memoryOf (bytes : List Byte) : Mem := fun x => bytes.getD (x.toNat - 0x10000) 0

/-- The memory up to 640 KB behind the memory from 1 MB up to 16 MB. -/
def twoRanges : List AddrRangeDesc := [⟨20, 0x100000, 0xF00000, 1⟩, ⟨20, 0, 0xA0000, 1⟩]

def twoRangesMemory : Mem :=
  memoryOf [20, 0, 0, 0, 0, 0, 0x10, 0, 0, 0, 0, 0, 0, 0, 0xF0, 0, 0, 0, 0, 0, 1, 0, 0, 0,
    20, 0, 0, 0, 0, 0, 0, 0, 0, 0, 0, 0, 0, 0, 0x0A, 0, 0, 0, 0, 0, 1, 0, 0, 0]

theorem mmapAvailAt_right_iff_twoRanges :
    ∃ r : Word, (∃ enough, ∀ fuel ≥ enough, mmapAvailAt twoRangesMemory ⟨0x10000, 48⟩ fuel 0x100000 = some r) ∧
      (∀ mem' mbi' descs', Mapped mem' mbi' descs' → descs'.Perm twoRanges →
        ∃ enough, ∀ fuel ≥ enough, mmapAvailAt mem' mbi' fuel 0x100000 = some r) ∧
      (IsAvailable twoRanges (0x100000 : Word).toNat r.toNat ↔ Unreached twoRanges (0x100000 : Word).toNat) := by
  apply mmapAvailAt_right_iff
  constructor
  · refine ⟨?_, ?_, trivial⟩
    · rfl
    · rfl
  · rfl
  · decide

/-- All the memory from 1 MB on. -/
def endless : AddrRangeDesc := ⟨20, 0x100000, 0xFFFFFFFFFFF00000, 1⟩

def endlessMemory : Mem := memoryOf [20, 0, 0, 0, 0, 0, 0x10, 0, 0, 0, 0, 0, 0, 0, 0xF0, 0xFF, 0xFF, 0xFF, 0xFF, 0xFF, 1, 0, 0, 0]

/-- The end of the range comes round to zero, and none of it is found. -/
theorem endless_missed :
    Mapped endlessMemory ⟨0x10000, 24⟩ [endless] ∧ mmapAvailAt endlessMemory ⟨0x10000, 24⟩ 2 0x100000 = some 0 ∧
      IsAvailable [endless] 0x100000 (maxTop - 0x100000) ∧ ¬ IsAvailable [endless] 0x100000 0 := by
  have hranges : ranges [endless] = [(0x100000, 2 ^ 64)] := by decide
  have hrun : IsRun (ranges [endless]) 0x100000 (2 ^ 64) := by
    rw [hranges]
    constructor
    · constructor
      · decide
      · exact fun x hlo hhi => ⟨_, List.mem_singleton_self _, hlo, hhi⟩
    · rintro ⟨range, hrange, -, hhi⟩
      rw [List.mem_singleton.1 hrange] at hhi
      exact Nat.lt_irrefl _ hhi
  refine ⟨⟨⟨rfl, trivial⟩, rfl, by decide⟩, by decide, ⟨2 ^ 64, hrun, by decide⟩, ?_⟩
  rintro ⟨top, htop, hlength⟩
  rw [htop.unique hrun] at hlength
  exact absurd hlength (by decide)

end TrustedGrub.Common
