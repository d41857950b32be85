import TrustedGrub.Builtins.DriveMap
import TrustedGrub.Drive.Confined

/-!
# `partnew`

`partnew_func` writes an entry of the partition table. An entry tells its first and its last sector
as CHS addresses, which are taken from the sector numbers by the geometry of the drive.
-/

namespace TrustedGrub.Builtins
open Fips180 (Byte)
open Disk (GrubError safeParseMaxint sectorSize)
open Drive (Geometry Firmware Hook unsigned)
open Memory (slice store)
open TrustedGrub.Partition (Buffer putByte putShort putLong DeviceGlobals setDevice le16 pcMbrCheckSig pcSliceType pcSliceStart
  pcSliceLength)

/-! ## CHS addresses -/

/-- `cl`, `ch` and `dh`, in the INT 13 format. -/
structure Chs where
  cl : Nat
  ch : Nat
  dh : Nat

/-- `lba_to_chs`; `none` is a division by zero. -/
def lbaToChs (g : Geometry) (lba : Int) : Option Chs :=
  if g.sectors * g.heads % 2 ^ 32 = 0 then none
  else
    let sector := unsigned lba % g.sectors + 1
    let head := unsigned lba / g.sectors % g.heads
    let cylinder := unsigned lba / (g.sectors * g.heads % 2 ^ 32)
    let cylinder := if g.cylinders ≤ cylinder then unsigned (g.cylinders - 1) else cylinder
    some ⟨sector ||| (cylinder &&& 0x300) >>> 2, cylinder &&& 0xFF, head⟩

/-- The ten bits of the cylinder. -/
def Chs.cylinder (c : Chs) : Nat := c.cl / 0x40 * 0x100 + c.ch

/-- The sector that an address means. -/
def Chs.lba (g : Geometry) (c : Chs) : Nat := (c.cylinder * g.heads + c.dh) * g.sectors + (c.cl % 0x40 - 1)

/-- The numbers fit in the bytes of an entry. -/
structure Chs.InBytes (c : Chs) : Prop where
  cl : c.cl < 0x100
  ch : c.ch < 0x100
  dh : c.dh < 0x100

/-- What INT 13 can address: 1024 cylinders, 256 heads, and 63 sectors per track. -/
structure Addressable (g : Geometry) : Prop where
  cylinders : g.cylinders ≤ 1024
  heads : g.heads ≤ 256
  sectors : g.sectors ≤ 63

set_option maxRecDepth 2000 in
theorem and_c0 {n : Nat} (h : n < 0x100) : n &&& 0xC0 = (n / 0x40) <<< 6 := by
  have hall : ∀ n < 0x100, n &&& 0xC0 = (n / 0x40) <<< 6 := by decide
  exact hall n h

/-- The two high bits of the cylinder lie above the sector. -/
theorem packed_cl {sector cylinder : Nat} (hsector : sector < 0x40) (hcylinder : cylinder < 0x400) :
    sector ||| (cylinder &&& 0x300) >>> 2 = cylinder / 0x100 * 0x40 + sector := by
  have hhigh : (cylinder &&& 0x300) >>> 2 = (cylinder / 0x100) <<< 6 := by
    rw [Nat.shiftRight_and_distrib, Nat.shiftRight_eq_div_pow]
    have h := and_c0 (show cylinder / 2 ^ 2 < 0x100 by omega)
    rw [Nat.div_div_eq_div_mul] at h
    exact h
  rw [hhigh, Nat.or_comm, ← Nat.shiftLeft_add_eq_or_of_lt hsector, Nat.shiftLeft_eq]

/-- The quotients and remainders of a sector number put it together again. -/
theorem lba_split (n sectors heads : Nat) :
    (n / (sectors * heads) * heads + n / sectors % heads) * sectors + n % sectors = n := by
  rw [← Nat.div_div_eq_div_mul, Nat.div_add_mod', Nat.div_add_mod']

theorem Addressable.cylinder_lt {g : Geometry} (hg : Addressable g) : g.sectors * g.heads < 2 ^ 32 := by
  have h : g.sectors * g.heads ≤ 63 * 256 := Nat.mul_le_mul hg.sectors hg.heads
  omega

theorem lbaToChs_inBytes {g : Geometry} (hg : Addressable g) {lba : Int} {c : Chs} (h : lbaToChs g lba = some c) : c.InBytes := by
  have hsectors := hg.sectors
  have hheads := hg.heads
  unfold lbaToChs at h
  rw [Nat.mod_eq_of_lt hg.cylinder_lt] at h
  split at h
  · cases h
  next hpos =>
    have hpos := Nat.pos_of_ne_zero hpos
    have hsector := Nat.mod_lt (unsigned lba) (Nat.pos_of_mul_pos_right hpos)
    have hhead := Nat.mod_lt (unsigned lba / g.sectors) (Nat.pos_of_mul_pos_left hpos)
    cases h
    refine ⟨?_, ?_, ?_⟩
    · apply Nat.or_lt_two_pow (show _ < 2 ^ 8 by omega)
      rw [Nat.shiftRight_eq_div_pow]
      refine Nat.div_lt_of_lt_mul (Nat.lt_of_le_of_lt Nat.and_le_right ?_)
      decide
    · exact Nat.lt_of_le_of_lt Nat.and_le_right (by decide)
    · exact Nat.lt_of_lt_of_le hhead hheads

/-- **An address means the sector that it was taken from**, if the geometry reaches that far. -/
theorem lbaToChs_lba {g : Geometry} (hg : Addressable g) {lba : Int} {c : Chs} (h : lbaToChs g lba = some c)
    (hlba : unsigned lba < g.chsSectors) : c.lba g = unsigned lba := by
  have hsectors := hg.sectors
  have hcylinders := hg.cylinders
  unfold lbaToChs at h
  rw [Nat.mod_eq_of_lt hg.cylinder_lt] at h
  split at h
  · cases h
  next hpos =>
    have hpos := Nat.pos_of_ne_zero hpos
    have hsector := Nat.mod_lt (unsigned lba) (Nat.pos_of_mul_pos_right hpos)
    have hcylinder : unsigned lba / (g.sectors * g.heads) < g.cylinders := by
      apply Nat.div_lt_of_lt_mul
      calc unsigned lba < g.cylinders * g.heads * g.sectors := hlba
        _ = g.sectors * g.heads * g.cylinders := by ring
    dsimp only at h
    rw [if_neg (Nat.not_le.2 hcylinder), packed_cl (by omega) (by omega)] at h
    have hsplit := lba_split (unsigned lba) g.sectors g.heads
    generalize unsigned lba / (g.sectors * g.heads) = cylinder at h hcylinder hsplit
    cases h
    have hlow : cylinder &&& 0xFF = cylinder % 0x100 := Nat.and_two_pow_sub_one_eq_mod cylinder 8
    have hwhole : (⟨cylinder / 0x100 * 0x40 + (unsigned lba % g.sectors + 1), cylinder &&& 0xFF,
        unsigned lba / g.sectors % g.heads⟩ : Chs).cylinder = cylinder := by
      unfold Chs.cylinder
      dsimp only
      omega
    unfold Chs.lba
    rw [hwhole]
    dsimp only
    calc _ = (cylinder * g.heads + unsigned lba / g.sectors % g.heads) * g.sectors + unsigned lba % g.sectors := by
          congr 1
          omega
      _ = unsigned lba := hsplit

/-! ## The entry -/

/-- The address of the first sector. -/
def pcSliceChs (mbr : Buffer) (part : Nat) : Chs :=
  ⟨(mbr (446 + 2 + 16 * part)).toNat, (mbr (446 + 3 + 16 * part)).toNat, (mbr (446 + 1 + 16 * part)).toNat⟩
/-- The address of the last one. -/
def pcSliceEchs (mbr : Buffer) (part : Nat) : Chs :=
  ⟨(mbr (446 + 6 + 16 * part)).toNat, (mbr (446 + 7 + 16 * part)).toNat, (mbr (446 + 5 + 16 * part)).toNat⟩

/-- The arguments, once they are taken apart. -/
structure NewPartition where
  drive : Nat
  entry : Nat
  newType : Nat
  newStart : Nat
  newLen : Nat

/-- Store the partition information in the MBR, and the signature. -/
def NewPartition.put (a : NewPartition) (start last : Chs) (mbr : Buffer) : Buffer :=
  let mbr := putByte mbr (446 + 16 * a.entry) 0
  let mbr := putByte mbr (446 + 1 + 16 * a.entry) start.dh
  let mbr := putByte mbr (446 + 2 + 16 * a.entry) start.cl
  let mbr := putByte mbr (446 + 3 + 16 * a.entry) start.ch
  let mbr := putByte mbr (446 + 4 + 16 * a.entry) a.newType
  let mbr := putByte mbr (446 + 5 + 16 * a.entry) last.dh
  let mbr := putByte mbr (446 + 6 + 16 * a.entry) last.cl
  let mbr := putByte mbr (446 + 7 + 16 * a.entry) last.ch
  let mbr := putLong mbr (446 + 8 + 16 * a.entry) a.newStart
  let mbr := putLong mbr (446 + 12 + 16 * a.entry) a.newLen
  putShort mbr 510 0xAA55

/-! ## The function -/

/-- The arguments: PART TYPE START LEN. A name that is to be completed leaves no partition. -/
def newPartition (g : DeviceGlobals) (arg : List Byte) : Except GrubError NewPartition :=
  match setDevice g arg with
  | .failed err => .error err
  | .completing => .error .badArgument
  | .device drive partition _ =>
    -- The drive must be a hard disk, and the partition a primary one.
    if drive &&& 0x80 = 0 then .error .badArgument
    else if 3 < partition >>> 16 ∨ partition &&& 0xFFFF ≠ 0xFFFF then .error .badArgument
    else
      match safeParseMaxint (skipTo false arg) with
      | .error err => .error err
      | .ok (newType, arg) =>
        if 0xFF < newType then .error .badArgument
        else
          match safeParseMaxint (skipTo false arg) with
          | .error err => .error err
          | .ok (newStart, arg) =>
            match safeParseMaxint (skipTo false arg) with
            | .error err => .error err
            | .ok (newLen, _) => .ok ⟨drive, partition >>> 16, newType, newStart, newLen⟩

/-- What a call comes to: what `partnew_func` returns, and the MBR given to `rawwrite`. -/
structure Partnew (ω : Type) where
  failed : Bool
  written : Option Buffer
  state : Drive.State ω

section Function
variable {ω : Type} (fw : Firmware ω) (hook : Option (Hook ω))

/-- `partnew_func`; `none` is a machine that stops. `mbr` lies at the address `buf`, and `stack` is what
it holds before the read. -/
def partnewFunc (g : DeviceGlobals) (arg : List Byte) (buf : Int) (stack : Buffer) (st : Drive.State ω) : Option (Partnew ω) :=
  match newPartition g arg with
  | .error err => some ⟨true, none, st.failed err⟩
  | .ok a =>
    -- Read the MBR.
    match Drive.rawread fw hook a.drive ⟨0, 0, sectorSize, buf⟩ st with
    | none => none
    | some (false, _, st) => some ⟨true, none, st⟩
    | some (true, bytes, st) =>
      if st.bufGeom.totalSectors < unsigned (a.newStart + a.newLen) then some ⟨true, none, st.failed .geom⟩
      else
        match lbaToChs st.bufGeom a.newStart, lbaToChs st.bufGeom (a.newStart + a.newLen - 1) with
        | some start, some last =>
          let mbr := a.put start last (store stack 0 bytes)
          match Drive.rawwrite fw a.drive 0 mbr st.invalidated with
          | none => none
          | some (ok, st) => some ⟨!ok, some mbr, st⟩
        | _, _ => none

end Function

/-! ## What the entry tells -/

section Entry
variable {a : NewPartition} {start last : Chs} {mbr : Buffer}

/-- The bytes of an entry. -/
def NewPartition.bytes (a : NewPartition) (start last : Chs) : List Byte :=
  [0, BitVec.ofNat 8 start.dh, BitVec.ofNat 8 start.cl, BitVec.ofNat 8 start.ch, BitVec.ofNat 8 a.newType,
    BitVec.ofNat 8 last.dh, BitVec.ofNat 8 last.cl, BitVec.ofNat 8 last.ch,
    BitVec.ofNat 8 a.newStart, BitVec.ofNat 8 (a.newStart >>> 8), BitVec.ofNat 8 (a.newStart >>> 16), BitVec.ofNat 8 (a.newStart >>> 24),
    BitVec.ofNat 8 a.newLen, BitVec.ofNat 8 (a.newLen >>> 8), BitVec.ofNat 8 (a.newLen >>> 16), BitVec.ofNat 8 (a.newLen >>> 24)]

/-- The stores are one store of the entry, and one of the signature. -/
theorem put_eq : a.put start last mbr = store (store mbr (446 + 16 * a.entry) (a.bytes start last)) 510 [0x55, 0xAA] := by
  have hnext (k : Nat) (xs ys : List Byte) (hk : xs.length = k) :
      store (store mbr (446 + 16 * a.entry) xs) (446 + k + 16 * a.entry) ys = store mbr (446 + 16 * a.entry) (xs ++ ys) := by
    rw [Memory.store_append, hk]
    congr 1
    omega
  unfold NewPartition.put putByte putLong putShort
  dsimp only
  rw [hnext 1 _ _ rfl, hnext 2 _ _ rfl, hnext 3 _ _ rfl, hnext 4 _ _ rfl, hnext 5 _ _ rfl, hnext 6 _ _ rfl, hnext 7 _ _ rfl,
    hnext 8 _ _ rfl, hnext 12 _ _ rfl]
  rfl

theorem bytes_length : (a.bytes start last).length = 16 := rfl

/-- A byte of the entry. -/
theorem put_at (hentry : a.entry ≤ 3) {i x : Nat} {b : Byte} (hx : x = 446 + 16 * a.entry + i) (hb : (a.bytes start last)[i]? = some b) :
    a.put start last mbr x = b := by
  obtain ⟨hi, hget⟩ := List.getElem?_eq_some_iff.1 hb
  have hlt : i < 16 := hi
  rw [put_eq, Memory.store_of_lt (by omega), hx, Memory.store_at hi, hget]

/-- The other bytes, but for the signature, stay. -/
theorem put_elsewhere {x : Nat} (hentry : ¬ (446 + 16 * a.entry ≤ x ∧ x < 446 + 16 * a.entry + 16)) (hsignature : x < 510 ∨ 512 ≤ x) :
    a.put start last mbr x = mbr x := by
  have hlength : (a.bytes start last).length = 16 := bytes_length
  have houter (m : Buffer) : store m 510 [0x55, 0xAA] x = m x := by
    rcases hsignature with h | h
    · exact Memory.store_of_lt h
    · exact Memory.store_of_ge h
  rw [put_eq, houter]
  rcases Nat.lt_or_ge x (446 + 16 * a.entry) with h | h
  · exact Memory.store_of_lt h
  · exact Memory.store_of_ge (by omega)

theorem put_signature : pcMbrCheckSig (a.put start last mbr) = true := by
  have hlow : a.put start last mbr 510 = 0x55 := by
    rw [put_eq]
    exact Memory.store_at (i := 0) (by decide)
  have hhigh : a.put start last mbr 511 = 0xAA := by
    rw [put_eq]
    exact Memory.store_at (a := 510) (i := 1) (by decide)
  unfold pcMbrCheckSig le16
  rw [hlow, hhigh]
  rfl

/-- An entry that has been written tells what was given. -/
structure Entered (g : Geometry) (a : NewPartition) (bytes : List Byte) (mbr : Buffer) : Prop where
  /-- The entry and the signature apart, the MBR is the one read. -/
  elsewhere : ∀ i < sectorSize, ¬ (446 + 16 * a.entry ≤ i ∧ i < 446 + 16 * a.entry + 16) → i ≠ 510 → i ≠ 511 → some (mbr i) = bytes[i]?
  signature : pcMbrCheckSig mbr = true
  type : pcSliceType mbr a.entry = a.newType
  start : pcSliceStart mbr a.entry = a.newStart
  length : pcSliceLength mbr a.entry = a.newLen
  /-- The partition fits in the disk. -/
  fits : a.newStart + a.newLen ≤ g.totalSectors
  first : Addressable g → a.newStart < g.chsSectors → (pcSliceChs mbr a.entry).lba g = a.newStart
  last : Addressable g → unsigned (a.newStart + a.newLen - 1) < g.chsSectors →
    (pcSliceEchs mbr a.entry).lba g = unsigned (a.newStart + a.newLen - 1)

/-- The numbers fit in the fields of the entry. -/
structure NewPartition.Sane (a : NewPartition) : Prop where
  entry : a.entry ≤ 3
  newType : a.newType ≤ 0xFF
  newStart : a.newStart ≤ 0x7FFFFFFF
  newLen : a.newLen ≤ 0x7FFFFFFF

theorem newPartition_sane {g : DeviceGlobals} {arg : List Byte} (h : newPartition g arg = .ok a) : a.Sane := by
  unfold newPartition at h
  split at h
  · cases h
  · cases h
  split at h
  · cases h
  split at h
  · cases h
  next hprimary =>
    split at h
    · cases h
    next htype =>
      split at h
      · cases h
      next hbyte =>
        split at h
        · cases h
        next hstart =>
          split at h
          · cases h
          next hlen =>
            cases h
            exact ⟨Nat.le_of_not_lt fun hlt => hprimary (.inl hlt), Nat.le_of_not_lt hbyte, Partition.safeParseMaxint_le hstart,
              Partition.safeParseMaxint_le hlen⟩

theorem toNat_byte {v : Nat} (h : v < 0x100) : (BitVec.ofNat 8 v).toNat = v := by
  rw [BitVec.toNat_ofNat]
  exact Nat.mod_eq_of_lt h

/-- Addresses of one byte each are read back. -/
theorem Chs.InBytes.read {c : Chs} (h : c.InBytes) :
    (⟨(BitVec.ofNat 8 c.cl).toNat, (BitVec.ofNat 8 c.ch).toNat, (BitVec.ofNat 8 c.dh).toNat⟩ : Chs) = c := by
  rw [toNat_byte h.cl, toNat_byte h.ch, toNat_byte h.dh]

theorem put_chs (hentry : a.entry ≤ 3) (hstart : start.InBytes) : pcSliceChs (a.put start last mbr) a.entry = start := by
  unfold pcSliceChs
  rw [put_at hentry (i := 2) (by omega) rfl, put_at hentry (i := 3) (by omega) rfl, put_at hentry (i := 1) (by omega) rfl]
  exact hstart.read

theorem put_echs (hentry : a.entry ≤ 3) (hlast : last.InBytes) : pcSliceEchs (a.put start last mbr) a.entry = last := by
  unfold pcSliceEchs
  rw [put_at hentry (i := 6) (by omega) rfl, put_at hentry (i := 7) (by omega) rfl, put_at hentry (i := 5) (by omega) rfl]
  exact hlast.read

theorem put_type (ha : a.Sane) : pcSliceType (a.put start last mbr) a.entry = a.newType := by
  unfold pcSliceType
  rw [put_at ha.entry (i := 4) (by omega) rfl]
  exact toNat_byte (Nat.lt_succ_of_le ha.newType)

theorem put_length (ha : a.Sane) : pcSliceLength (a.put start last mbr) a.entry = a.newLen := by
  have hentry := ha.entry
  have hlen := ha.newLen
  unfold pcSliceLength NewPartition.put
  dsimp only
  rw [Partition.le32_congr fun x _ hhi => Partition.putShort_elsewhere (.inl (by omega))]
  exact Partition.le32_putLong (by omega)

theorem put_start (ha : a.Sane) : pcSliceStart (a.put start last mbr) a.entry = a.newStart := by
  have hentry := ha.entry
  have hstart := ha.newStart
  unfold pcSliceStart NewPartition.put
  dsimp only
  rw [Partition.le32_congr fun x _ hhi => Partition.putShort_elsewhere (.inl (by omega)),
    Partition.le32_congr fun x _ hhi => Partition.putLong_elsewhere (.inl (by omega))]
  exact Partition.le32_putLong (by omega)

/-- The stores make an entry that tells what was given. -/
theorem put_entered {g : Geometry} (ha : a.Sane) {bytes : List Byte} (hbytes : bytes.length = sectorSize) (stack : Buffer)
    (hfits : ¬ g.totalSectors < unsigned (a.newStart + a.newLen)) (hstart : lbaToChs g a.newStart = some start)
    (hlast : lbaToChs g (a.newStart + a.newLen - 1) = some last) : Entered g a bytes (a.put start last (store stack 0 bytes)) := by
  have hstartLt := ha.newStart
  have hlenLt := ha.newLen
  constructor
  case elsewhere =>
    intro i hi hentry hlow hhigh
    have hi' : i < 512 := hi
    have hlt : i < bytes.length := by rw [hbytes]; exact hi
    rw [put_elsewhere hentry (by omega)]
    have hread := Memory.store_at (m := stack) (a := 0) hlt
    rw [Nat.zero_add] at hread
    rw [hread, List.getElem?_eq_getElem hlt]
  case signature => exact put_signature
  case type => exact put_type ha
  case start => exact put_start ha
  case length => exact put_length ha
  case fits =>
    unfold unsigned at hfits
    omega
  case first =>
    intro hg hlt
    have hlba : unsigned a.newStart = a.newStart := by
      unfold unsigned
      omega
    rw [put_chs ha.entry (lbaToChs_inBytes hg hstart), lbaToChs_lba hg hstart (by rw [hlba]; exact hlt), hlba]
  case last =>
    intro hg hlt
    rw [put_echs ha.entry (lbaToChs_inBytes hg hlast), lbaToChs_lba hg hlast hlt]

end Entry

/-- **A partition that `partnew` creates** is the one that was asked for, and nothing else in the MBR changes. -/
theorem partnew_consistent {ω : Type} (fw : Firmware ω) (hook : Option (Hook ω)) (g : DeviceGlobals) (arg : List Byte) (buf : Int)
    (stack : Buffer) (st : Drive.State ω) {r : Partnew ω} (h : partnewFunc fw hook g arg buf stack st = some r) (hok : r.failed = false) :
    ∃ a bytes st₁ mbr, newPartition g arg = .ok a ∧ Drive.rawread fw hook a.drive ⟨0, 0, sectorSize, buf⟩ st = some (true, bytes, st₁) ∧
      bytes.length = sectorSize ∧ r.written = some mbr ∧ Drive.rawwrite fw a.drive 0 mbr st₁.invalidated = some (true, r.state) ∧
      Entered st₁.bufGeom a bytes mbr := by
  unfold partnewFunc at h
  split at h
  · cases h
    cases hok
  next a ha =>
    split at h
    · cases h
    · cases h
      cases hok
    next bytes st₁ hread =>
      have hlength := Drive.rawread_length (Int.natCast_nonneg sectorSize) hread
      have hbytes : bytes.length = sectorSize := Int.ofNat_inj.1 hlength
      split at h
      · cases h
        cases hok
      next hfits =>
        split at h
        next start last hstart hlast =>
          dsimp only at h
          split at h
          · cases h
          next ok st₂ hwrite =>
            cases h
            obtain rfl : ok = true := by simpa using hok
            exact ⟨a, bytes, st₁, _, ha, hread, hbytes, rfl, hwrite, put_entered (newPartition_sane ha) hbytes stack hfits hstart hlast⟩
        · cases h

/-- A hard disk of 16 sectors that is selected, with sector 0 in the buffer. -/
def smallDisk : Drive.State Unit where
  bufDrive := 0x80
  bufTrack := 0
  bufGeom := ⟨4, 2, 2, 16, 512, false, false⟩
  mem _ := 0
  errnum := .none
  memLower := 640
  memUpper := 0
  disk _ _ := 0
  world := ()

/-- `(hd0,1) 131 2 9` -/
def newEntry : List Byte := [0x28, 0x68, 0x64, 0x30, 0x2C, 0x31, 0x29, 0x20, 0x31, 0x33, 0x31, 0x20, 0x32, 0x20, 0x39]

theorem partnew_consistent_smallDisk : ∃ r : Partnew Unit, r.failed = false ∧
    ∃ a bytes st₁ mbr, newPartition ⟨0x80, 0xFFFFFF, 0xFF, false, false⟩ newEntry = .ok a ∧
      Drive.rawread Drive.twoTracks none a.drive ⟨0, 0, sectorSize, 0x8000⟩ smallDisk = some (true, bytes, st₁) ∧
      bytes.length = sectorSize ∧ r.written = some mbr ∧
        Drive.rawwrite Drive.twoTracks a.drive 0 mbr st₁.invalidated = some (true, r.state) ∧
      Entered st₁.bufGeom a bytes mbr := by
  have hruns : (partnewFunc Drive.twoTracks none ⟨0x80, 0xFFFFFF, 0xFF, false, false⟩ newEntry 0x8000 (fun _ => 0) smallDisk).map
      Partnew.failed = some false := by decide +kernel
  obtain ⟨r, hrun, hok⟩ := Option.map_eq_some_iff.1 hruns
  exact ⟨r, hok, partnew_consistent Drive.twoTracks none _ newEntry 0x8000 _ smallDisk hrun hok⟩

end TrustedGrub.Builtins
