import TrustedGrub.Partition.DeviceName

/-!
# Printed names and the devices they are read as

A printer's text is read back as the device exactly when `set_device` accepts the device
and the printer has printed all of it.
-/

namespace TrustedGrub.Partition
open Fips180 (Byte)

variable {g : DeviceGlobals}

/-! ## Partition words -/

/-- A partition as the enumeration produces it. -/
def IsWord (partition : Nat) : Prop := ∃ slice bsd, slice < 0x100 ∧ bsd < 0x100 ∧ partition = word slice bsd

theorem masked_eq (n k : Nat) : n &&& 0xFF <<< k = (n >>> k % 0x100) <<< k := by
  have hbyte : n >>> k % 0x100 = n >>> k &&& 0xFF := (Nat.and_two_pow_sub_one_eq_mod (n >>> k) 8).symm
  rw [hbyte]
  apply Nat.eq_of_testBit_eq
  intro j
  rw [Nat.testBit_and, Nat.testBit_shiftLeft, Nat.testBit_shiftLeft, Nat.testBit_and, Nat.testBit_shiftRight]
  by_cases hj : j ≥ k
  · rw [Nat.add_sub_cancel' hj]
    simp [hj]
  · simp [hj]

theorem masked_iff (n k : Nat) : n &&& 0xFF <<< k = 0xFF <<< k ↔ n >>> k % 0x100 = 0xFF := by
  rw [masked_eq, Nat.shiftLeft_eq, Nat.shiftLeft_eq]
  exact Nat.mul_right_cancel_iff (Nat.two_pow_pos k)

theorem slice_masked {slice bsd : Nat} (hs : slice < 0x100) (hb : bsd < 0x100) :
    word slice bsd &&& 0xFF0000 = 0xFF0000 ↔ slice = 0xFF := by
  rw [show (0xFF0000 : Nat) = 0xFF <<< 16 by decide, masked_iff, word_eq hb, Nat.shiftRight_eq_div_pow]
  omega

theorem bsd_masked {slice bsd : Nat} (hb : bsd < 0x100) : word slice bsd &&& 0xFF00 = 0xFF00 ↔ bsd = 0xFF := by
  rw [show (0xFF00 : Nat) = 0xFF <<< 8 by decide, masked_iff, word_eq hb, Nat.shiftRight_eq_div_pow]
  omega

theorem word_shifted {slice bsd : Nat} (hb : bsd < 0x100) : word slice bsd >>> 16 = slice := by
  rw [word_eq hb, Nat.shiftRight_eq_div_pow]
  omega

theorem hard_iff {drive : Nat} (h : drive < 0x100) : drive &&& 0x80 ≠ 0 ↔ 0x80 ≤ drive := by
  have hall : ∀ n < 0x100, (n &&& 0x80 ≠ 0 ↔ 0x80 ≤ n) := by decide +kernel
  exact hall drive h

/-- What a sane partition of a drive with partitions is. -/
theorem sane_word {drive slice bsd : Nat} (hnet : drive ≠ networkDrive) (hb : bsd < 0x100)
    (h : sanePartition g drive (word slice bsd) = true) : (bsd = 0xFF ∨ bsd < 8) ∧ (slice = 0xFF ∨ drive &&& 0x80 ≠ 0) := by
  unfold sanePartition at h
  rcases of_decide_eq_true h with h | ⟨-, -, -, hbsd, hslice⟩
  · exact absurd h hnet
  · rw [word_shifted hb] at hslice
    refine ⟨?_, hslice⟩
    rw [bsd_masked hb] at hbsd
    refine hbsd.imp_right fun hlt => ?_
    rw [show (0xFF00 : Nat) = 0xFF <<< 8 by decide, masked_eq, word_eq hb, Nat.shiftRight_eq_div_pow, Nat.shiftLeft_eq] at hlt
    omega

/-! ## Printers -/

inductive Printer where
  | find | root | sprint

/-- The text that a printer prints for a device. -/
def Printer.text : Printer → Nat × Nat → List Byte
  | .find, (drive, partition) => findText drive partition
  | .root, (drive, partition) => printRootDevice drive partition
  | .sprint, (drive, partition) => sprintDevice drive partition

/-- The devices that a printer is called for: `find` looks at eight floppy disks, as a
whole, and at the partitions of eight hard disks. The network drive has no partitions. -/
def Printer.Prints : Printer → Nat × Nat → Prop
  | .find, (drive, partition) => (drive < 8 ∧ partition = 0xFFFFFF) ∨ (0x80 ≤ drive ∧ drive < 0x88 ∧ IsWord partition)
  | _, (drive, partition) => drive < 0x100 ∧ IsWord partition ∧ (drive = networkDrive → partition = 0xFFFFFF)

/-- The text is read as the device it has been printed for. -/
def Printer.ReadsBack (g : DeviceGlobals) (pr : Printer) (x : Nat × Nat) : Prop := setDevice g (pr.text x) = .device x.1 x.2 []

/-- `set_device` accepts the device, and its name can say all of it: `find` prints a slice
number even if there is none, `root` prints no BSD partition of a floppy disk, and its
name for the network drive needs a network. -/
def Printer.Readable (g : DeviceGlobals) : Printer → Nat × Nat → Prop
  | .find, (drive, partition) => sanePartition g drive partition ∧ (0x80 ≤ drive → sliceNo partition ≠ 0xFF)
  | .root, (drive, partition) =>
    if drive = networkDrive then g.supportNetboot = true ∧ g.networkReady = true
    else sanePartition g drive partition ∧ (drive < 0x80 → partition = 0xFFFFFF)
  | .sprint, (drive, partition) => sanePartition g drive partition

/-- The part of a name behind the drive. -/
def partitionText (slice bsd : Nat) : List Byte :=
  (if slice ≠ 0xFF then 0x2C :: convertToAscii slice else []) ++ (if bsd ≠ 0xFF then [0x2C, bsdLetter (word slice bsd)] else []) ++ [0x29]

/-- A sane partition's name is read. -/
theorem readPartition_text {drive slice bsd : Nat} (hs : slice < 0x100) (hb : bsd = 0xFF ∨ bsd < 8)
    (hhard : slice = 0xFF ∨ drive &&& 0x80 ≠ 0) : ∃ c rest, EndsNumber c ∧ partitionText slice bsd = c :: rest ∧
      readPartition g drive (c :: rest) = .ok (word slice bsd, some []) := by
  unfold partitionText
  by_cases hslice : slice = 0xFF
  · rw [if_neg (not_not_intro hslice)]
    rcases hb with rfl | hb
    · rw [if_neg (by decide), hslice]
      exact ⟨0x29, [], .inl rfl, rfl, rfl⟩
    · rw [if_pos (by omega)]
      refine ⟨0x2C, _, .inr rfl, rfl, ?_⟩
      rw [hslice]
      exact readPartition_bsd hb
  · have hdrive : drive &&& 0x80 ≠ 0 := hhard.resolve_left hslice
    rw [if_pos hslice]
    rcases hb with rfl | hb
    · rw [if_neg (by decide), List.append_nil]
      refine ⟨0x2C, convertToAscii slice ++ [0x29], .inr rfl, rfl, ?_⟩
      rw [readPartition_slice (by omega) (.inl rfl), if_neg hdrive, if_neg (by omega)]
      rfl
    · rw [if_pos (by omega), List.append_assoc]
      refine ⟨0x2C, convertToAscii slice ++ [0x2C, bsdLetter (word slice bsd), 0x29], .inr rfl, rfl, ?_⟩
      have hletter := isPartLetter_bsd slice hb
      have hvalue := bsdLetter_word slice hb
      rw [readPartition_slice (by omega) (.inr rfl), if_neg hdrive, if_neg (by omega)]
      dsimp only
      rw [if_pos rfl, List.headD_cons, if_pos hletter, hvalue, Nat.add_sub_cancel, Nat.or_comm, word_replace hs (by decide)]
      rfl

/-- A printed name of a sane device is read. -/
theorem setDevice_text {letter : Byte} {n drive slice bsd : Nat} (hletter : letter = 0x66 ∨ letter = 0x68) (hn : n ≤ 0x7FFFFFFF)
    (hdrive : (if letter = 0x68 then n + 0x80 else n) = drive) (hs : slice < 0x100) (hb : bsd = 0xFF ∨ bsd < 8)
    (hhard : slice = 0xFF ∨ drive &&& 0x80 ≠ 0) (hsane : sanePartition g drive (word slice bsd) = true) :
    setDevice g (deviceText letter n (partitionText slice bsd)) = .device drive (word slice bsd) [] := by
  obtain ⟨c, rest, hc, htext, hread⟩ := readPartition_text (g := g) hs hb hhard
  rw [htext, setDevice_printed hletter hn hc, hdrive, hread]
  exact if_neg (not_not_intro hsane)

theorem word_whole : word 0xFF 0xFF = 0xFFFFFF := by decide

/-- A whole drive of a letter `f`. -/
theorem setDevice_floppy {drive : Nat} (hd : drive < 0x100) :
    setDevice g (deviceText 0x66 drive [0x29]) =
      if sanePartition g drive 0xFFFFFF then .device drive 0xFFFFFF [] else .failed .devValues := by
  rw [setDevice_printed (.inl rfl) (by omega) (.inl rfl)]
  have hletter : (if (0x66 : Byte) = 0x68 then drive + 0x80 else drive) = drive := if_neg (by decide)
  rw [hletter, readPartition_disk]
  dsimp only
  cases sanePartition g drive 0xFFFFFF <;> rfl

/-- A partition of a hard disk. -/
theorem setDevice_hard {drive slice bsd : Nat} (hhard : 0x80 ≤ drive) (hd : drive < 0x100) (hnet : drive ≠ networkDrive)
    (hs : slice < 0x100) (hb : bsd < 0x100) (hsane : sanePartition g drive (word slice bsd) = true) :
    setDevice g (deviceText 0x68 (drive - 0x80) (partitionText slice bsd)) = .device drive (word slice bsd) [] := by
  have hdrive : (if (0x68 : Byte) = 0x68 then drive - 0x80 + 0x80 else drive - 0x80) = drive := by
    rw [if_pos rfl]
    omega
  obtain ⟨hbsd, hslice⟩ := sane_word hnet hb hsane
  exact setDevice_text (.inr rfl) (by omega) hdrive hs hbsd hslice hsane

theorem not_networkDrive {drive : Nat} (h : 0x80 ≤ drive) : drive ≠ networkDrive := by
  unfold networkDrive
  omega

/-- The text of `find` for a partition of a hard disk. -/
theorem findText_hard {drive slice bsd : Nat} (hhard : 0x80 ≤ drive) (hb : bsd < 0x100) :
    findText drive (word slice bsd) = deviceText 0x68 (drive - 0x80) (0x2C :: (convertToAscii slice ++
      if bsd = 0xFF then [0x29] else [0x2C, bsdLetter (word slice bsd), 0x29])) := by
  unfold findText
  rw [if_neg (by omega), word_shifted hb, bsdPartNo_word hb]

theorem find_readsBack {x : Nat × Nat} (hx : Printer.find.Prints x) : Printer.find.ReadsBack g x ↔ Printer.find.Readable g x := by
  obtain ⟨drive, partition⟩ := x
  constructor
  · intro h
    refine ⟨setDevice_sane h, fun hhard hslice => ?_⟩
    rcases hx with ⟨hd, -⟩ | ⟨-, hd, slice, bsd, hs, hb, rfl⟩
    · omega
    · rw [sliceNo_word hs hb] at hslice
      -- the number 255 is refused, whatever follows it
      obtain ⟨c, rest, hc, htail⟩ : ∃ c rest, EndsNumber c ∧
          (if bsd = 0xFF then [0x29] else [0x2C, bsdLetter (word slice bsd), 0x29]) = c :: rest := by
        split
        · exact ⟨0x29, [], .inl rfl, rfl⟩
        · exact ⟨0x2C, _, .inr rfl, rfl⟩
      have htext : setDevice g (findText drive (word slice bsd)) = .device drive (word slice bsd) [] := h
      rw [findText_hard hhard hb, htail, setDevice_printed (.inr rfl) (by omega) (.inr rfl), readPartition_slice (by omega) hc] at htext
      rw [if_pos rfl, Nat.sub_add_cancel hhard, if_neg ((hard_iff (by omega)).2 hhard), if_pos (by omega)] at htext
      cases htext
  · rintro ⟨hsane, hslice⟩
    rcases hx with ⟨hd, rfl⟩ | ⟨hhard, hd, slice, bsd, hs, hb, rfl⟩
    · have htext : Printer.find.text (drive, 0xFFFFFF) = deviceText 0x66 drive [0x29] := if_pos hd
      unfold Printer.ReadsBack
      rw [htext, setDevice_floppy (by omega), if_pos hsane]
    · have hsome : slice ≠ 0xFF := by
        have hno := hslice hhard
        rwa [sliceNo_word hs hb] at hno
      have htext : Printer.find.text (drive, word slice bsd) = deviceText 0x68 (drive - 0x80) (partitionText slice bsd) := by
        rw [Printer.text, findText_hard hhard hb, partitionText, if_pos hsome, ite_not]
        split <;> simp
      unfold Printer.ReadsBack
      rw [htext, setDevice_hard hhard (by omega) (not_networkDrive hhard) hs hb hsane]

/-- The parts of a name that `root` and `install` print conditionally. -/
theorem conditional_text {slice bsd : Nat} (hs : slice < 0x100) (hb : bsd < 0x100) :
    (if word slice bsd &&& 0xFF0000 ≠ 0xFF0000 then 0x2C :: convertToAscii slice else []) ++
        (if word slice bsd &&& 0xFF00 ≠ 0xFF00 then [0x2C, bsdLetter (word slice bsd)] else []) ++ [0x29] =
      partitionText slice bsd := by
  simp only [partitionText, ne_eq, slice_masked hs hb, bsd_masked hb]

theorem sprintDevice_word {drive slice bsd : Nat} (hs : slice < 0x100) (hb : bsd = 0xFF ∨ bsd < 8) :
    sprintDevice drive (word slice bsd) =
      deviceText (if drive &&& 0x80 ≠ 0 then 0x68 else 0x66) (drive % 0x80) (partitionText slice bsd) := by
  have hbyte : bsd < 0x100 := by omega
  have hletter : word slice bsd &&& 0xFF00 ≠ 0xFF00 → bsdLetter (word slice bsd) ≠ 0 := by
    rw [ne_eq, bsd_masked hbyte]
    intro hsome hzero
    have hvalue := bsdLetter_word slice (hb.resolve_left hsome)
    rw [hzero] at hvalue
    have hnone : (0 : Byte).toNat = 0 := rfl
    omega
  have hbsd : (if word slice bsd &&& 0xFF00 ≠ 0xFF00 then
      0x2C :: (if bsdLetter (word slice bsd) = 0 then [] else [bsdLetter (word slice bsd)]) else []) =
        if word slice bsd &&& 0xFF00 ≠ 0xFF00 then [0x2C, bsdLetter (word slice bsd)] else [] := by
    split
    next h => rw [if_neg (hletter h)]
    next => rfl
  rw [sprintDevice, hbsd, sliceNo_word hs hbyte, conditional_text hs hbyte]

theorem sprint_readsBack {x : Nat × Nat} (hx : Printer.sprint.Prints x) : Printer.sprint.ReadsBack g x ↔ Printer.sprint.Readable g x := by
  obtain ⟨drive, partition⟩ := x
  obtain ⟨hd, ⟨slice, bsd, hs, hb, rfl⟩, hnet⟩ := hx
  constructor
  · intro h
    exact setDevice_sane h
  · intro hsane
    unfold Printer.ReadsBack
    by_cases hnetwork : drive = networkDrive
    · rw [hnet hnetwork, Printer.text, ← word_whole, sprintDevice_word (by decide) (.inl rfl), hnetwork]
      have hname : deviceText (if networkDrive &&& 0x80 ≠ 0 then 0x68 else 0x66) (networkDrive % 0x80) (partitionText 0xFF 0xFF) =
          deviceText 0x66 networkDrive [0x29] := rfl
      rw [hname, setDevice_floppy (by decide)]
      exact if_pos (decide_eq_true (.inl rfl))
    · obtain ⟨hbsd, hslice⟩ := sane_word hnetwork hb hsane
      rw [Printer.text, sprintDevice_word hs hbsd]
      by_cases hhard : 0x80 ≤ drive
      · rw [if_pos ((hard_iff hd).2 hhard)]
        have hnumber : drive % 0x80 = drive - 0x80 := by omega
        rw [hnumber]
        exact setDevice_hard hhard hd hnetwork hs hb hsane
      · rw [if_neg (mt (hard_iff hd).1 hhard)]
        have hnumber : drive % 0x80 = drive := by omega
        rw [hnumber]
        exact setDevice_text (.inl rfl) (by omega) (if_neg (by decide)) hs hbsd hslice hsane

/-- The network drive, which needs a network. -/
theorem setDevice_network : setDevice g [0x28, 0x6E, 0x64, 0x29] =
    if g.supportNetboot = true ∧ g.networkReady = true then .device networkDrive 0xFFFFFF [] else .failed .numberParsing := by
  have hnamed : g.named 0x6E = decide (g.supportNetboot = true ∧ g.networkReady = true) := by
    unfold DeviceGlobals.named
    simp
  have hdrive : readDrive g [0x6E, 0x64, 0x29] =
      if g.supportNetboot = true ∧ g.networkReady = true then .ok (networkDrive, [0x29]) else .error (some .numberParsing) := by
    unfold readDrive
    rw [List.headD_cons]
    dsimp only
    rw [hnamed]
    by_cases hready : g.supportNetboot = true ∧ g.networkReady = true
    · rw [if_pos (decide_eq_true hready), if_pos hready]
      rfl
    · rw [if_neg (by rw [decide_eq_true_eq]; exact hready), if_neg hready]
      rfl
  have hsane : sanePartition g networkDrive 0xFFFFFF = true := decide_eq_true (.inl rfl)
  unfold setDevice
  simp only [List.headD_cons, List.getD_cons_succ, List.getD_cons_zero, List.drop_succ_cons, List.drop_zero, hdrive]
  by_cases hready : g.supportNetboot = true ∧ g.networkReady = true
  · simp only [if_pos hready]
    rw [if_neg (by decide), if_pos trivial, if_neg (by decide)]
    dsimp only
    rw [if_pos trivial, readPartition_disk]
    exact if_neg (not_not_intro hsane)
  · simp only [if_neg hready]
    rw [if_neg (by decide), if_pos trivial, if_neg (by decide)]

theorem root_readsBack {x : Nat × Nat} (hx : Printer.root.Prints x) : Printer.root.ReadsBack g x ↔ Printer.root.Readable g x := by
  obtain ⟨drive, partition⟩ := x
  obtain ⟨hd, ⟨slice, bsd, hs, hb, rfl⟩, hnet⟩ := hx
  change setDevice g (printRootDevice drive (word slice bsd)) = .device drive (word slice bsd) [] ↔
    if drive = networkDrive then g.supportNetboot = true ∧ g.networkReady = true
    else sanePartition g drive (word slice bsd) ∧ (drive < 0x80 → word slice bsd = 0xFFFFFF)
  unfold printRootDevice
  by_cases hnetwork : drive = networkDrive
  · rw [if_pos hnetwork, if_pos hnetwork, hnet hnetwork, setDevice_network, hnetwork]
    constructor
    · intro h
      split at h
      next hready => exact hready
      next => cases h
    · intro hready
      exact if_pos hready
  · rw [if_neg hnetwork, if_neg hnetwork]
    by_cases hhard : 0x80 ≤ drive
    · rw [if_pos ((hard_iff hd).2 hhard), word_shifted hb, conditional_text hs hb]
      constructor
      · intro h
        exact ⟨setDevice_sane h, fun hfloppy => by omega⟩
      · rintro ⟨hsane, -⟩
        exact setDevice_hard hhard hd hnetwork hs hb hsane
    · rw [if_neg (mt (hard_iff hd).1 hhard), setDevice_floppy hd]
      constructor
      · intro h
        split at h
        next hs' =>
          obtain ⟨-, hpartition, -⟩ := SetDevice.device.inj h
          rw [← hpartition]
          exact ⟨hs', fun _ => rfl⟩
        next => cases h
      · rintro ⟨hsane, hwhole⟩
        rw [hwhole (by omega)] at hsane ⊢
        exact if_pos hsane

/-- **Names of devices.** Two devices have their names read back as themselves, and are not
printed as the same text unless they are the same, exactly when both are readable. -/
theorem device_names_iff {pr : Printer} {x y : Nat × Nat} (hx : pr.Prints x) (hy : pr.Prints y) :
    (pr.ReadsBack g x ∧ pr.ReadsBack g y ∧ (pr.text x = pr.text y → x = y)) ↔ pr.Readable g x ∧ pr.Readable g y := by
  have hiff {z : Nat × Nat} (hz : pr.Prints z) : pr.ReadsBack g z ↔ pr.Readable g z := by
    cases pr with
    | find => exact find_readsBack hz
    | root => exact root_readsBack hz
    | sprint => exact sprint_readsBack hz
  rw [← hiff hx, ← hiff hy]
  constructor
  · rintro ⟨hrx, hry, -⟩
    exact ⟨hrx, hry⟩
  · rintro ⟨hrx, hry⟩
    refine ⟨hrx, hry, fun hsame => ?_⟩
    have hread : SetDevice.device x.1 x.2 [] = .device y.1 y.2 [] := by
      rw [← hrx, ← hry, hsame]
    obtain ⟨hdrive, hpartition, -⟩ := SetDevice.device.inj hread
    exact Prod.ext hdrive hpartition

/-- No CD-ROM drive, no network. -/
def diskGlobals : DeviceGlobals := ⟨0x80, 0xFFFF, grubInvalidDrive, false, false⟩

theorem device_names_hd0 : (Printer.sprint.ReadsBack diskGlobals (0x80, 0x1FFFF) ∧ Printer.sprint.ReadsBack diskGlobals (0x80, 0xFF00FF) ∧
      (Printer.sprint.text (0x80, 0x1FFFF) = Printer.sprint.text (0x80, 0xFF00FF) → ((0x80, 0x1FFFF) : Nat × Nat) = (0x80, 0xFF00FF))) ↔
    Printer.sprint.Readable diskGlobals (0x80, 0x1FFFF) ∧ Printer.sprint.Readable diskGlobals (0x80, 0xFF00FF) :=
  device_names_iff ⟨by decide, ⟨1, 0xFF, by decide⟩, by decide⟩ ⟨by decide, ⟨0xFF, 0, by decide⟩, by decide⟩

/-- `root` prints BSD partition `a` of the first floppy disk as the whole disk. -/
theorem root_prints_disk : Printer.root.text (0, 0xFF00FF) = Printer.root.text (0, 0xFFFFFF) ∧
    setDevice diskGlobals (Printer.root.text (0, 0xFF00FF)) = .device 0 0xFFFFFF [] :=
  ⟨rfl, rfl⟩

end TrustedGrub.Partition
