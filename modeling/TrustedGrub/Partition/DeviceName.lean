import TrustedGrub.Partition.Enumeration

/-!
# Device names

`set_device` reads names such as `(hd0,1,a)`; `find`, `root` and `install` print them, each
with a printer of its own.
-/

namespace TrustedGrub.Partition
open Fips180 (Byte)
open Disk (GrubError safeParseMaxint parseDigits digitOf)

def networkDrive : Nat := 0x20
def grubInvalidDrive : Nat := 0xFF

/-- The globals that `set_device` reads. `network_ready` is as `bootp` leaves it. -/
structure DeviceGlobals where
  savedDrive : Nat
  savedPartition : Nat
  cdromDrive : Nat
  supportNetboot : Bool
  networkReady : Bool

/-- `sane_partition`. -/
def sanePartition (g : DeviceGlobals) (drive partition : Nat) : Bool :=
  drive = networkDrive ∨
    (partition &&& 0xFF000000 = 0 ∧ (drive &&& 0xFFFFFF7F < 8 ∨ drive = g.cdromDrive) ∧ partition &&& 0xFF = 0xFF ∧
      (partition &&& 0xFF00 = 0xFF00 ∨ partition &&& 0xFF00 < 0x800) ∧ (partition >>> 16 = 0xFF ∨ drive &&& 0x80 ≠ 0))

/-- What becomes of a name: a drive, a partition and the text behind the name, or a place
where the names of devices are to be completed, or an error. -/
inductive SetDevice where
  | device (drive partition : Nat) (rest : List Byte)
  | completing
  | failed (err : GrubError)

/-- The letters that a drive may be named by. -/
def DeviceGlobals.named (g : DeviceGlobals) (ch : Byte) : Bool :=
  ch = 0x66 ∨ ch = 0x68 ∨ (ch = 0x6E ∧ g.supportNetboot ∧ g.networkReady) ∨ (ch = 0x63 ∧ g.cdromDrive ≠ grubInvalidDrive)

/-- The drive, behind the parenthesis. Without an error, a name that ends too early is to
be completed. -/
def readDrive (g : DeviceGlobals) (device : List Byte) : Except (Option GrubError) (Nat × List Byte) :=
  let ch := device.headD 0
  if g.named ch then
    if device.getD 1 0 = 0 ∨ (device.getD 1 0 = 0x64 ∧ device.getD 2 0 = 0) then .error none
    else if ch = 0x6E then
      if device.getD 1 0 ≠ 0x64 then .error (some .numberParsing) else .ok (networkDrive, device.drop 2)
    else if ch = 0x63 then
      if device.getD 1 0 ≠ 0x64 then .error (some .numberParsing) else .ok (g.cdromDrive, device.drop 2)
    else
      match safeParseMaxint (device.drop 2) with
      | .error err => .error (some err)
      | .ok (drive, rest) =>
        if device.getD 1 0 ≠ 0x64 then .error (some .numberParsing)
        else .ok (if ch = 0x68 then drive + 0x80 else drive, rest)
  else
    match safeParseMaxint device with
    | .error err => .error (some err)
    | .ok (drive, rest) => .ok (drive, rest)

def isPartLetter (c : Byte) : Bool := 0x61 ≤ c.toNat ∧ c.toNat ≤ 0x68

/-- The closing parenthesis: the text behind it. -/
def closing (device : List Byte) : Option (List Byte) := if device.headD 0 = 0x29 then some (device.drop 1) else none

/-- The partition, behind the drive, and the text behind the name if it is closed. -/
def readPartition (g : DeviceGlobals) (drive : Nat) (device : List Byte) : Except GrubError (Nat × Option (List Byte)) :=
  if device.headD 0 = 0x29 then .ok (0xFFFFFF, closing device)
  else if device.headD 0 = 0x2C then
    let device := device.drop 1
    let c := device.headD 0
    if 0x30 ≤ c.toNat ∧ c.toNat ≤ 0x39 then
      if drive &&& 0x80 = 0 then .error .devFormat
      else
        match safeParseMaxint device with
        | .error _ => .error .devFormat
        | .ok (slice, rest) =>
          if 254 < slice then .error .devFormat
          else
            let partition := slice <<< 16 + 0xFFFF
            let rest := if rest.headD 0 = 0x2C then rest.drop 1 else rest
            if isPartLetter (rest.headD 0) then
              .ok (((rest.headD 0).toNat - 0x61) <<< 8 ||| partition &&& 0xFF00FF, closing (rest.drop 1))
            else .ok (partition, closing rest)
    else if isPartLetter c then .ok ((c.toNat - 0x61) <<< 8 ||| 0xFF00FF, closing (device.drop 1))
    else .ok (if device.headD 0 = 0x29 then g.savedPartition else 0xFFFFFF, closing device)
  else .ok (0xFFFFFF, none)

/-- `set_device`, with no error pending. -/
def setDevice (g : DeviceGlobals) (device : List Byte) : SetDevice :=
  if device.headD 0 = 0x28 ∧ device.getD 1 0 = 0 then .completing
  else
    let drive :=
      if device.headD 0 = 0x28 then
        if device.getD 1 0 = 0x2C ∨ device.getD 1 0 = 0x29 then .ok (g.savedDrive, device.drop 1) else readDrive g (device.drop 1)
      else .ok (g.savedDrive, device)
    match drive with
    | .error none => .completing
    | .error (some err) => .failed err
    | .ok (drive, rest) =>
      match if device.headD 0 = 0x28 then readPartition g drive rest else .ok (0xFFFFFF, none) with
      | .error err => .failed err
      | .ok (partition, closed) =>
        if ¬ sanePartition g drive partition then .failed .devValues
        else
          match closed with
          | some rest => .device drive partition rest
          | none => .failed .devFormat

/-- What is read is sane. -/
theorem setDevice_sane {g : DeviceGlobals} {device rest : List Byte} {drive partition : Nat}
    (h : setDevice g device = .device drive partition rest) : sanePartition g drive partition = true := by
  unfold setDevice at h
  split at h
  next => cases h
  next =>
    dsimp only at h
    split at h
    next => cases h
    next => cases h
    next =>
      split at h
      next => cases h
      next =>
        split at h
        next => cases h
        next hsane =>
          split at h
          next =>
            cases h
            exact of_not_not hsane
          next => cases h

/-! ### The numbers of drives -/

theorem parseDigits_le {mult : Nat} {ptr rest : List Byte} {myint n : Nat} {found : Bool}
    (h : parseDigits mult ptr myint found = .ok (n, rest))
    (hle : myint ≤ 0x7FFFFFFF) : n ≤ 0x7FFFFFFF := by
  induction ptr generalizing myint found with
  | nil =>
    rw [parseDigits] at h
    split at h <;> cases h
    exact hle
  | cons c ptr ih =>
    rw [parseDigits] at h
    split at h
    · split at h <;> cases h
      exact hle
    next digit hdigit =>
      split at h
      · cases h
      next hfits =>
        apply ih h
        have hmul := Nat.mul_le_of_le_div mult _ _ (Nat.le_of_not_lt hfits)
        have hdigit : digit ≤ 0x7FFFFFFF := by
          unfold digitOf at hdigit
          split at hdigit
          · cases hdigit
            omega
          · split at hdigit
            · cases hdigit
              omega
            · split at hdigit <;> cases hdigit
              omega
        omega

theorem safeParseMaxint_le {ptr rest : List Byte} {n : Nat} (h : safeParseMaxint ptr = .ok (n, rest)) : n ≤ 0x7FFFFFFF := by
  unfold safeParseMaxint at h
  split at h
  · split at h <;> exact parseDigits_le h (Nat.zero_le _)
  · exact parseDigits_le h (Nat.zero_le _)

theorem readDrive_lt {g : DeviceGlobals} {device rest : List Byte} {drive : Nat} (hcdrom : g.cdromDrive < 2 ^ 32)
    (h : readDrive g device = .ok (drive, rest)) : drive < 2 ^ 32 := by
  unfold readDrive at h
  dsimp only at h
  by_cases hnamed : g.named (device.headD 0) = true
  · rw [if_pos hnamed] at h
    split at h
    · cases h
    split at h
    · split at h <;> cases h
      decide
    split at h
    · split at h <;> cases h
      exact hcdrom
    generalize hparse : safeParseMaxint (device.drop 2) = parsed at h
    obtain _ | ⟨n, after⟩ := parsed
    · cases h
    have hle := safeParseMaxint_le hparse
    dsimp only at h
    split at h <;> cases h
    split <;> omega
  · rw [if_neg hnamed] at h
    generalize hparse : safeParseMaxint device = parsed at h
    obtain _ | ⟨n, after⟩ := parsed
    · cases h
    have hle := safeParseMaxint_le hparse
    cases h
    omega

theorem setDevice_lt {g : DeviceGlobals} {device rest : List Byte} {drive partition : Nat} (hsaved : g.savedDrive < 2 ^ 32)
    (hcdrom : g.cdromDrive < 2 ^ 32) (h : setDevice g device = .device drive partition rest) : drive < 2 ^ 32 := by
  unfold setDevice at h
  split at h
  next => cases h
  next =>
    dsimp only at h
    split at h
    next => cases h
    next => cases h
    next drive' rest' hread =>
      have hlt : drive' < 2 ^ 32 := by
        split at hread
        · split at hread
          · cases hread
            exact hsaved
          · exact readDrive_lt hcdrom hread
        · cases hread
          exact hsaved
      split at h
      next => cases h
      next =>
        split at h
        next => cases h
        next =>
          split at h <;> cases h
          exact hlt

/-- A drive that is neither the network nor the CD-ROM is a floppy or a hard disk. -/
theorem sane_drive_lt {drive : Nat} (hlt : drive < 2 ^ 32) (h : drive &&& 0xFFFFFF7F < 8) : drive < 256 := by
  have hsplit : drive = (drive &&& 0xFFFFFF7F) ||| (drive &&& 0x80) := by
    rw [← Nat.and_or_distrib_left]
    show drive = drive &&& 2 ^ 32 - 1
    rw [Nat.and_two_pow_sub_one_eq_mod, Nat.mod_eq_of_lt hlt]
  rw [hsplit]
  exact Nat.or_lt_two_pow (show _ < 2 ^ 8 by omega) (Nat.lt_of_le_of_lt Nat.and_le_right (by decide))

/-! ## Printers -/

/-- The digits of a number, the last one first. -/
def digitsRev : Nat → Nat → List Byte
  | 0, _ => []
  | fuel + 1, num => BitVec.ofNat 8 (0x30 + num % 10) :: if num / 10 = 0 then [] else digitsRev fuel (num / 10)

/-- `convert_to_ascii` for `%d`, of a number that an `int` holds: ten digits are enough. -/
def convertToAscii (num : Nat) : List Byte := (digitsRev 10 num).reverse

/-- `%c` of a BSD partition. -/
def bsdLetter (partition : Nat) : Byte := BitVec.ofNat 8 (bsdPartNo partition + 0x61)

/-- A name up to the number of the drive, and its `tail`. -/
def deviceText (letter : Byte) (number : Nat) (tail : List Byte) : List Byte :=
  0x28 :: letter :: 0x64 :: (convertToAscii number ++ tail)

/-- What `find` prints, behind the blank. -/
def findText (drive partition : Nat) : List Byte :=
  if drive < 8 then deviceText 0x66 drive [0x29]
  else
    deviceText 0x68 (drive - 0x80) (0x2C :: (convertToAscii (partition >>> 16) ++
      if bsdPartNo partition = 0xFF then [0x29] else [0x2C, bsdLetter partition, 0x29]))

/-- What `print_root_device` prints, between the blank and the colon. -/
def printRootDevice (drive partition : Nat) : List Byte :=
  if drive = networkDrive then [0x28, 0x6E, 0x64, 0x29]
  else if drive &&& 0x80 ≠ 0 then
    deviceText 0x68 (drive - 0x80)
      ((if partition &&& 0xFF0000 ≠ 0xFF0000 then 0x2C :: convertToAscii (partition >>> 16) else []) ++
        (if partition &&& 0xFF00 ≠ 0xFF00 then [0x2C, bsdLetter partition] else []) ++ [0x29])
  else deviceText 0x66 drive [0x29]

/-- What `sprint_device` of `install` stores. A letter 0 ends its part of the name. -/
def sprintDevice (drive partition : Nat) : List Byte :=
  deviceText (if drive &&& 0x80 ≠ 0 then 0x68 else 0x66) (drive % 0x80)
    ((if partition &&& 0xFF0000 ≠ 0xFF0000 then 0x2C :: convertToAscii (sliceNo partition) else []) ++
      (if partition &&& 0xFF00 ≠ 0xFF00 then 0x2C :: (if bsdLetter partition = 0 then [] else [bsdLetter partition]) else []) ++ [0x29])

/-! ## Numbers are read back -/

theorem digitOf_digit {n : Nat} (h : n < 10) : digitOf 10 (BitVec.ofNat 8 (0x30 + n)) = some n := by
  have hvalue : (BitVec.ofNat 8 (0x30 + n)).toNat = 0x30 + n := by
    rw [BitVec.toNat_ofNat]
    omega
  unfold digitOf
  rw [hvalue, if_pos (by omega), Nat.add_sub_cancel_left]

/-- A digit behind a number. -/
theorem parseDigits_digit {acc n : Nat} (hn : n < 10) (hfits : acc * 10 + n ≤ 0x7FFFFFFF) (found : Bool) (rest : List Byte) :
    parseDigits 10 (BitVec.ofNat 8 (0x30 + n) :: rest) acc found = parseDigits 10 rest (acc * 10 + n) true := by
  rw [parseDigits, digitOf_digit hn]
  exact if_neg (by omega)

theorem parseDigits_digitsRev (fuel : Nat) : ∀ {n : Nat}, n < 10 ^ fuel → 0 < fuel → n ≤ 0x7FFFFFFF → ∀ rest : List Byte,
    parseDigits 10 ((digitsRev fuel n).reverse ++ rest) 0 false = parseDigits 10 rest n true := by
  induction fuel with
  | zero => intro n _ hpos; exact absurd hpos (by decide)
  | succ fuel ih =>
    intro n hn _ hfits rest
    rw [digitsRev, List.reverse_cons, List.append_assoc]
    split
    next hlast =>
      rw [List.reverse_nil, List.nil_append, List.singleton_append, parseDigits_digit (Nat.mod_lt _ (by decide)) (by omega)]
      congr 1
      omega
    next hmore =>
      have hpos : 0 < fuel := by
        rcases fuel with _ | fuel
        · omega
        · exact Nat.succ_pos _
      have hlt : n / 10 < 10 ^ fuel := Nat.div_lt_of_lt_mul (by rwa [Nat.mul_comm, ← Nat.pow_succ])
      rw [ih hlt hpos (by omega), List.singleton_append, parseDigits_digit (Nat.mod_lt _ (by decide)) (by omega)]
      congr 1
      omega

theorem parseDigits_end {n : Nat} {c : Byte} (hc : digitOf 10 c = none) (rest : List Byte) :
    parseDigits 10 (c :: rest) n true = .ok (n, c :: rest) := by
  rw [parseDigits, hc]
  rfl

theorem convertToAscii_zero : convertToAscii 0 = [0x30] := rfl

/-- Printed numbers start with a digit, and only 0 starts with 0. -/
theorem digitsRev_first (fuel : Nat) : ∀ {n : Nat}, n < 10 ^ fuel → 0 < fuel →
    ∃ d < 10, ∃ more, (digitsRev fuel n).reverse = BitVec.ofNat 8 (0x30 + d) :: more ∧ (d = 0 → n = 0) := by
  induction fuel with
  | zero => intro n _ hpos; exact absurd hpos (by decide)
  | succ fuel ih =>
    intro n hn _
    rw [digitsRev, List.reverse_cons]
    split
    next hlast => exact ⟨n % 10, Nat.mod_lt _ (by decide), [], rfl, by omega⟩
    next hmore =>
      have hpos : 0 < fuel := by
        rcases fuel with _ | fuel
        · omega
        · exact Nat.succ_pos _
      have hlt : n / 10 < 10 ^ fuel := Nat.div_lt_of_lt_mul (by rwa [Nat.mul_comm, ← Nat.pow_succ])
      obtain ⟨d, hd, more, heq, hzero⟩ := ih hlt hpos
      exact ⟨d, hd, more ++ [BitVec.ofNat 8 (0x30 + n % 10)], by rw [heq]; rfl, fun h => absurd (hzero h) hmore⟩

/-- **Numbers are read back**, before what can neither go on with the number nor make it
hexadecimal. -/
theorem safeParseMaxint_printed {n : Nat} (hn : n ≤ 0x7FFFFFFF) {c : Byte} (hc : digitOf 10 c = none) (hx : c ≠ 0x78 ∧ c ≠ 0x58)
    (rest : List Byte) : safeParseMaxint (convertToAscii n ++ c :: rest) = .ok (n, c :: rest) := by
  have hdigits : parseDigits 10 (convertToAscii n ++ c :: rest) 0 false = .ok (n, c :: rest) := by
    rw [convertToAscii, parseDigits_digitsRev 10 (by omega) (by decide) hn, parseDigits_end hc]
  rcases Nat.eq_zero_or_pos n with rfl | hpos
  · rw [convertToAscii_zero] at hdigits ⊢
    rw [List.singleton_append] at hdigits ⊢
    exact (if_neg (not_or.2 hx)).trans hdigits
  · obtain ⟨d, hd, more, heq, hzero⟩ := digitsRev_first 10 (show n < 10 ^ 10 by omega) (by decide)
    have hfirst : BitVec.ofNat 8 (0x30 + d) ≠ (0x30 : Byte) := by
      intro hsame
      have hvalue := congrArg BitVec.toNat hsame
      rw [BitVec.toNat_ofNat] at hvalue
      have hthirty : (0x30 : Byte).toNat = 0x30 := rfl
      rw [hthirty] at hvalue
      exact absurd (hzero (by omega)) (by omega)
    rw [convertToAscii, heq, List.cons_append] at hdigits ⊢
    unfold safeParseMaxint
    split
    next hsame => exact absurd (List.cons.inj hsame).1 hfirst
    next => exact hdigits

/-! ## Names are read back -/

variable {g : DeviceGlobals}

/-- What ends a number in a name. -/
def EndsNumber (c : Byte) : Prop := c = 0x29 ∨ c = 0x2C

theorem EndsNumber.digitOf {c : Byte} (h : EndsNumber c) : Disk.digitOf 10 c = none ∧ (c ≠ 0x78 ∧ c ≠ 0x58) := by
  rcases h with rfl | rfl <;> decide

/-- The drive of a printed name. -/
theorem readDrive_printed {letter : Byte} (hletter : letter = 0x66 ∨ letter = 0x68) {n : Nat} (hn : n ≤ 0x7FFFFFFF) {c : Byte}
    (hc : EndsNumber c) (rest : List Byte) :
    readDrive g (letter :: 0x64 :: (convertToAscii n ++ c :: rest)) = .ok (if letter = 0x68 then n + 0x80 else n, c :: rest) := by
  have hnamed : g.named letter = true := by
    unfold DeviceGlobals.named
    rcases hletter with rfl | rfl <;> simp
  have hnumber : (convertToAscii n ++ c :: rest).getD 0 0 ≠ 0 := by
    obtain ⟨d, hd, more, heq, -⟩ := digitsRev_first 10 (show n < 10 ^ 10 by omega) (by decide)
    rw [convertToAscii, heq]
    intro hzero
    have hvalue := congrArg BitVec.toNat hzero
    rw [List.cons_append, List.getD_cons_zero, BitVec.toNat_ofNat] at hvalue
    have hnone : (0 : Byte).toNat = 0 := rfl
    omega
  obtain ⟨hdigit, hx⟩ := hc.digitOf
  unfold readDrive
  rw [List.headD_cons, if_pos hnamed]
  simp only [List.getD_cons_succ, List.getD_cons_zero, List.drop_succ_cons, List.drop_zero]
  rw [if_neg (by rintro (h | ⟨-, h⟩); exact absurd h (by decide); exact hnumber h), if_neg (by rcases hletter with rfl | rfl <;> decide),
    if_neg (by rcases hletter with rfl | rfl <;> decide), safeParseMaxint_printed hn hdigit hx]
  exact if_neg (by decide)

/-- A printed name is read as its drive and what its tail is read as. -/
theorem setDevice_printed {letter : Byte} (hletter : letter = 0x66 ∨ letter = 0x68) {n : Nat} (hn : n ≤ 0x7FFFFFFF) {c : Byte}
    (hc : EndsNumber c) (rest : List Byte) :
    setDevice g (deviceText letter n (c :: rest)) =
      match readPartition g (if letter = 0x68 then n + 0x80 else n) (c :: rest) with
      | .error err => .failed err
      | .ok (partition, closed) =>
        if ¬ sanePartition g (if letter = 0x68 then n + 0x80 else n) partition then .failed .devValues
        else
          match closed with
          | some rest => .device (if letter = 0x68 then n + 0x80 else n) partition rest
          | none => .failed .devFormat := by
  have hfirst : letter ≠ 0 ∧ letter ≠ 0x2C ∧ letter ≠ 0x29 := by
    rcases hletter with rfl | rfl <;> decide
  unfold setDevice deviceText
  simp only [List.headD_cons, List.getD_cons_succ, List.getD_cons_zero, List.drop_succ_cons, List.drop_zero, true_and, if_true,
    if_neg hfirst.1, if_neg (not_or.2 hfirst.2), readDrive_printed hletter hn hc]

theorem bsdLetter_word (slice : Nat) {bsd : Nat} (hb : bsd < 8) : (bsdLetter (word slice bsd)).toNat = bsd + 0x61 := by
  unfold bsdLetter
  rw [bsdPartNo_word (by omega), BitVec.toNat_ofNat]
  omega

theorem isPartLetter_bsd (slice : Nat) {bsd : Nat} (hb : bsd < 8) : isPartLetter (bsdLetter (word slice bsd)) = true := by
  unfold isPartLetter
  rw [bsdLetter_word slice hb, decide_eq_true_eq]
  omega

theorem word_slice {slice : Nat} : slice <<< 16 + 0xFFFF = word slice 0xFF := by
  rw [word_eq (by decide), Nat.shiftLeft_eq]
  omega

theorem readPartition_disk (drive : Nat) : readPartition g drive [0x29] = .ok (0xFFFFFF, some []) := rfl

/-- A slice, and what follows its number. -/
theorem readPartition_slice {drive slice : Nat} (hfits : slice ≤ 0x7FFFFFFF) {c : Byte} (hc : EndsNumber c) (rest : List Byte) :
    readPartition g drive (0x2C :: (convertToAscii slice ++ c :: rest)) =
      if drive &&& 0x80 = 0 then .error .devFormat
      else if 254 < slice then .error .devFormat
      else
        let rest := if c = 0x2C then rest else c :: rest
        if isPartLetter (rest.headD 0) then
          .ok (((rest.headD 0).toNat - 0x61) <<< 8 ||| word slice 0xFF &&& 0xFF00FF, closing (rest.drop 1))
        else .ok (word slice 0xFF, closing rest) := by
  obtain ⟨d, hd, more, heq, -⟩ := digitsRev_first 10 (show slice < 10 ^ 10 by omega) (by decide)
  obtain ⟨hdigit, hx⟩ := hc.digitOf
  have hfirst : (convertToAscii slice ++ c :: rest).headD 0 = BitVec.ofNat 8 (0x30 + d) := by
    rw [convertToAscii, heq]
    rfl
  have hvalue : (BitVec.ofNat 8 (0x30 + d)).toNat = 0x30 + d := by
    rw [BitVec.toNat_ofNat]
    omega
  have hnumber := safeParseMaxint_printed hfits hdigit hx rest
  unfold readPartition
  simp only [List.headD_cons, List.drop_succ_cons, List.drop_zero, hfirst, hvalue, hnumber]
  rw [if_neg (by decide), if_pos trivial, if_pos (by omega)]
  simp only [word_slice]

theorem readPartition_bsd {drive bsd slice : Nat} (hb : bsd < 8) :
    readPartition g drive [0x2C, bsdLetter (word slice bsd), 0x29] = .ok (word 0xFF bsd, some []) := by
  have hvalue := bsdLetter_word slice hb
  unfold readPartition
  simp only [List.headD_cons, List.drop_succ_cons, List.drop_zero, hvalue, isPartLetter_bsd slice hb]
  rw [if_neg (by decide), if_pos trivial, if_neg (by omega), if_pos trivial, Nat.add_sub_cancel]
  have hword : bsd <<< 8 ||| 0xFF00FF = word 0xFF bsd := by
    rw [word, Nat.or_comm (0xFF <<< 16), Nat.or_assoc]
    rfl
  rw [hword]
  rfl

end TrustedGrub.Partition
