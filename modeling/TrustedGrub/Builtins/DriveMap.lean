import TrustedGrub.Partition.DeviceName
import TrustedGrub.Lib.Table

/-!
# `map`

The table that `map` keeps for the handler of the BIOS calls, as a finite map from drives to
drives, and the drive that `boot` takes from it.
-/

namespace TrustedGrub.Builtins
open Fips180 (Byte)
open Disk (GrubError)
open TrustedGrub.Partition (DeviceGlobals setDevice networkDrive sanePartition)
open Table (assign remove position)

/-- `skip_to (after_equal, cmdline)`. -/
def skipTo (afterEqual : Bool) (cmdline : List Byte) : List Byte :=
  (cmdline.dropWhile fun c => ¬ (c = 0x20 ∨ c = 0x09 ∨ (afterEqual ∧ c = 0x3D))).dropWhile fun c => c = 0x20 ∨ c = 0x09 ∨
    (afterEqual ∧ c = 0x3D)

/-- `bios_drive_map`, and the memory behind it. -/
abbrev DriveMap := Nat → BitVec 16

def driveMapSize : Nat := 8

/-- The table when GRUB starts. -/
def DriveMap.start (memory : DriveMap) : DriveMap := fun i => if i ≤ driveMapSize then 0 else memory i

/-- The globals that device names are read with. The BIOS numbers its drives by a byte, and
`saved_drive` and `cdrom_drive` are set from what it says and from what `set_device` reads. -/
structure Drives extends DeviceGlobals where
  saved : savedDrive < 256
  cdrom : cdromDrive < 256

/-- `current_drive` after `set_device`. A name that is to be completed leaves `saved_drive`. -/
def Drives.currentDrive (g : Drives) (device : List Byte) : Except GrubError Nat :=
  match setDevice g.toDeviceGlobals device with
  | .device drive _ _ => .ok drive
  | .completing => .ok g.savedDrive
  | .failed err => .error err

/-- Where the search for a drive stops: at its entry, at an empty slot, or behind the table. -/
def DriveMap.search (map : DriveMap) (drive : Nat) : Nat :=
  ((List.range driveMapSize).find? fun i => (map i &&& 0xff).toNat = drive ∨ map i = 0).getD driveMapSize

/-- `map_func`: the error that it sets, and the table. -/
def mapFunc (g : Drives) (arg : List Byte) (map : DriveMap) : Option GrubError × DriveMap :=
  match g.currentDrive arg with
  | .error err => (some err, map)
  | .ok toDrive =>
    match g.currentDrive (skipTo false arg) with
    | .error err => (some err, map)
    | .ok fromDrive =>
      let i := map.search fromDrive
      if i = driveMapSize then (some .wontFit, map)
      -- If TO is equal to FROM, the entry is deleted.
      else if toDrive = fromDrive then (none, fun j => if i ≤ j ∧ j < driveMapSize then map (j + 1) else map j)
      else (none, Function.update map i (.ofNat 16 (fromDrive ||| toDrive <<< 8)))

/-- The drive that `boot` takes for `saved_drive`. -/
def DriveMap.boot (map : DriveMap) (savedDrive : Nat) : Nat :=
  if map 0 = 0 then savedDrive
  else
    match (List.range driveMapSize).find? fun i => map i = 0 ∨ (map i &&& 0xff).toNat = savedDrive with
    | some i => if map i = 0 then savedDrive else ((map i >>> 8) &&& 0xff).toNat
    | none => savedDrive

/-! ## Runs -/

/-- A `map` command, with the globals that it finds. -/
structure MapCommand where
  globals : Drives
  arg : List Byte

/-- The table after some commands. -/
def runMap (cmds : List MapCommand) (map : DriveMap) : DriveMap :=
  cmds.foldl (fun map c => (mapFunc c.globals c.arg map).2) map

/-- The drives of a command, from and to. -/
def MapCommand.drives (c : MapCommand) : Option (Nat × Nat) := do
  let toDrive ← (c.globals.currentDrive c.arg).toOption
  let fromDrive ← (c.globals.currentDrive (skipTo false c.arg)).toOption
  some (fromDrive, toDrive)

/-- The drives of a command that succeeds, for the pairs that are mapped before it: both words name a drive, and the
one that is mapped has an entry or there is room for one. -/
def MapCommand.succeeds (c : MapCommand) (l : List (Nat × Nat)) : Option (Nat × Nat) :=
  c.drives.filter fun d => d.1 ∈ l.map Prod.fst ∨ l.length < driveMapSize

/-- The pairs that are mapped after a command. A drive that is mapped to itself is mapped no more. -/
def MapCommand.mapped (c : MapCommand) (l : List (Nat × Nat)) : List (Nat × Nat) :=
  match c.succeeds l with
  | none => l
  | some (fromDrive, toDrive) => if toDrive = fromDrive then remove fromDrive l else assign fromDrive toDrive l

/-- The pairs that are mapped after some commands. -/
def mappedBy (cmds : List MapCommand) : List (Nat × Nat) := cmds.foldl (fun l c => c.mapped l) []

/-- The drives of the commands that succeed. -/
def accepted : List MapCommand → List (Nat × Nat) → List (Nat × Nat)
  | [], _ => []
  | c :: cmds, l => (c.succeeds l).toList ++ accepted cmds (c.mapped l)

/-- The target of the last command for a drive, or the drive itself. -/
def target (cmds : List (Nat × Nat)) (drive : Nat) : Nat := (cmds.reverse.lookup drive).getD drive

/-! ## The table as a map -/

/-- An entry of the table. -/
def encode (e : Nat × Nat) : BitVec 16 := .ofNat 16 (e.1 ||| e.2 <<< 8)

/-- The table holds a list of pairs without gaps, one for a drive, and zeros behind it. -/
structure Represents (map : DriveMap) (l : List (Nat × Nat)) : Prop where
  length : l.length ≤ driveMapSize
  slots : ∀ i ≤ driveMapSize, map i = (l[i]?).elim 0 encode
  distinct : (l.map Prod.fst).Nodup
  drives : ∀ e ∈ l, e.1 < 256 ∧ e.2 < 256 ∧ e.1 ≠ e.2

section Entries
variable {e : Nat × Nat}

theorem encode_toNat (h₁ : e.1 < 256) (h₂ : e.2 < 256) : (encode e).toNat = e.1 + 256 * e.2 := by
  have hor : e.1 ||| e.2 <<< 8 = e.1 + 256 * e.2 := by
    rw [Nat.or_comm, ← Nat.shiftLeft_add_eq_or_of_lt (show e.1 < 2 ^ 8 from h₁), Nat.shiftLeft_eq]
    omega
  rw [encode, BitVec.toNat_ofNat, hor, Nat.mod_eq_of_lt (by omega)]

theorem low_toNat (w : BitVec 16) : (w &&& 0xff).toNat = w.toNat % 256 := by
  rw [BitVec.toNat_and]
  exact Nat.and_two_pow_sub_one_eq_mod _ 8

theorem encode_low (h₁ : e.1 < 256) (h₂ : e.2 < 256) : (encode e &&& 0xff).toNat = e.1 := by
  rw [low_toNat, encode_toNat h₁ h₂]
  omega

theorem encode_high (h₁ : e.1 < 256) (h₂ : e.2 < 256) : ((encode e >>> 8) &&& 0xff).toNat = e.2 := by
  rw [low_toNat, BitVec.toNat_ushiftRight, encode_toNat h₁ h₂, Nat.shiftRight_eq_div_pow]
  omega

theorem encode_ne_zero (h₁ : e.1 < 256) (h₂ : e.2 < 256) (hne : e.1 ≠ e.2) : encode e ≠ 0 := by
  intro hzero
  have hvalue := encode_toNat h₁ h₂
  rw [hzero] at hvalue
  have hvalue : 0 = e.1 + 256 * e.2 := hvalue
  omega

end Entries

section Search
variable {map : DriveMap} {l : List (Nat × Nat)} {drive i : Nat}

theorem Represents.getElem (h : Represents map l) (hi : i < l.length) : map i = encode l[i] := by
  rw [h.slots i (Nat.le_of_lt (Nat.lt_of_lt_of_le hi h.length)), List.getElem?_eq_getElem hi]
  rfl

theorem Represents.behind (h : Represents map l) (hi : l.length ≤ i) (hle : i ≤ driveMapSize) : map i = 0 := by
  rw [h.slots i hle, List.getElem?_eq_none hi]
  rfl

/-- A slot is in use, and by which drive. -/
theorem Represents.slot (h : Represents map l) (hi : i < l.length) : (map i &&& 0xff).toNat = (l[i]).1 ∧ map i ≠ 0 := by
  obtain ⟨h₁, h₂, hne⟩ := h.drives _ (List.getElem_mem hi)
  rw [h.getElem hi]
  exact ⟨encode_low h₁ h₂, encode_ne_zero h₁ h₂ hne⟩

/-- What both loops over the table find: the entry of a drive, or the first empty slot. -/
theorem Represents.find (h : Represents map l) (drive : Nat) {p : Nat → Bool}
    (hp : ∀ i, p i = true ↔ (map i &&& 0xff).toNat = drive ∨ map i = 0) :
    (List.range driveMapSize).find? p = if position drive l < driveMapSize then some (position drive l) else none := by
  have hbefore : ∀ j < position drive l, p j = false := by
    intro j hj
    have hlt := Nat.lt_of_lt_of_le hj Table.position_le
    obtain ⟨hlow, hne⟩ := h.slot hlt
    have hkey := List.not_of_lt_findIdx hj
    rw [Bool.eq_false_iff, ne_eq, hp, hlow, not_or]
    exact ⟨of_decide_eq_false hkey, hne⟩
  split
  next hlt =>
    refine List.find?_range_eq_some.2 ⟨?_, List.mem_range.2 hlt, fun j hj => by rw [hbefore j hj]; rfl⟩
    rw [hp]
    obtain hin | hend := Nat.lt_or_ge (position drive l) l.length
    · exact .inl ((h.slot hin).1.trans (of_decide_eq_true (List.findIdx_getElem (w := hin))))
    · exact .inr (h.behind hend (Nat.le_of_lt hlt))
  next hnot =>
    rw [List.find?_range_eq_none]
    intro j hj
    rw [hbefore j (Nat.lt_of_lt_of_le hj (Nat.le_of_not_lt hnot))]
    rfl

theorem Represents.search (h : Represents map l) (drive : Nat) : map.search drive = position drive l := by
  rw [DriveMap.search, h.find drive (fun i => decide_eq_true_iff)]
  split
  · rfl
  next hnot => exact Nat.le_antisymm (Nat.le_of_not_lt hnot) (Nat.le_trans Table.position_le h.length)

/-- `boot` looks a drive up. -/
theorem Represents.boot (h : Represents map l) (drive : Nat) : map.boot drive = (l.lookup drive).getD drive := by
  have habsent : l.length ≤ position drive l → l.lookup drive = none := fun hend =>
    Table.lookup_of_not_mem fun hmem => Nat.not_lt.2 hend (Table.position_lt.2 hmem)
  unfold DriveMap.boot
  split
  next hzero =>
    have hempty : l.length = 0 := by
      by_contra hne
      exact (h.slot (Nat.pos_of_ne_zero hne)).2 hzero
    rw [habsent (hempty ▸ Nat.zero_le _)]
    rfl
  next =>
    rw [h.find drive (fun i => decide_eq_true_iff.trans or_comm)]
    split
    next i hi =>
      obtain ⟨hlt, rfl⟩ : position drive l < driveMapSize ∧ position drive l = i := by
        split at hi
        next hlt => exact ⟨hlt, Option.some.inj hi⟩
        next => cases hi
      split
      next hzero =>
        rw [habsent (Nat.le_of_not_lt fun hin => (h.slot hin).2 hzero)]
        rfl
      next hne =>
        have hin : position drive l < l.length := Nat.lt_of_not_le fun hend => hne (h.behind hend (Nat.le_of_lt hlt))
        obtain ⟨h₁, h₂, -⟩ := h.drives _ (List.getElem_mem hin)
        rw [Table.lookup_eq, List.getElem?_eq_getElem hin, h.getElem hin, encode_high h₁ h₂]
        rfl
    next hi =>
      have hfull : driveMapSize ≤ position drive l := by
        by_contra hlt
        rw [if_pos (Nat.lt_of_not_le hlt)] at hi
        cases hi
      rw [habsent (Nat.le_trans h.length hfull)]
      rfl

end Search

/-! ## One command -/

/-- The drives are numbered by a byte. -/
theorem Drives.currentDrive_lt {g : Drives} {device : List Byte} {drive : Nat} (h : g.currentDrive device = .ok drive) : drive < 256 := by
  unfold currentDrive at h
  split at h
  next hset =>
    cases h
    have hsane := Partition.setDevice_sane hset
    rw [sanePartition, decide_eq_true_iff] at hsane
    obtain rfl | ⟨-, hdrive | rfl, -⟩ := hsane
    · decide
    · have hsaved := g.saved
      have hcdrom := g.cdrom
      exact Partition.sane_drive_lt (Partition.setDevice_lt (by omega) (by omega) hset) hdrive
    · exact g.cdrom
  next =>
    cases h
    exact g.saved
  next => cases h

section Step
variable {map : DriveMap} {l : List (Nat × Nat)} {fromDrive toDrive : Nat}

/-- The entry of a drive is deleted, if there is one. -/
theorem Represents.delete (h : Represents map l) (_ : position fromDrive l < driveMapSize) :
    Represents (fun j => if position fromDrive l ≤ j ∧ j < driveMapSize then map (j + 1) else map j) (remove fromDrive l) := by
  have hsub := Table.remove_sublist (k := fromDrive) (l := l)
  refine ⟨Nat.le_trans hsub.length_le h.length, fun i hi => ?_, (hsub.map _).nodup h.distinct, fun e he => h.drives e (hsub.subset he)⟩
  rw [remove, List.getElem?_eraseIdx]
  by_cases hbefore : i < position fromDrive l
  · rw [if_pos hbefore, if_neg (fun hc => absurd hc.1 (Nat.not_le.2 hbefore))]
    exact h.slots i hi
  · rw [if_neg hbefore]
    obtain hi | rfl := Nat.lt_or_eq_of_le hi
    · rw [if_pos ⟨Nat.le_of_not_lt hbefore, hi⟩]
      exact h.slots (i + 1) hi
    · rw [if_neg (fun hc => absurd hc.2 (Nat.lt_irrefl _)), h.behind h.length (Nat.le_refl _),
        List.getElem?_eq_none (Nat.le_succ_of_le h.length)]
      rfl

/-- The entry of a drive is set, or put into the first empty slot. -/
theorem Represents.insert (h : Represents map l) (hlt : position fromDrive l < driveMapSize) (hfrom : fromDrive < 256) (hto : toDrive < 256)
    (hne : fromDrive ≠ toDrive) :
    Represents (Function.update map (position fromDrive l) (.ofNat 16 (fromDrive ||| toDrive <<< 8))) (assign fromDrive toDrive l) := by
  constructor
  · rw [Table.assign_length]
    split
    · exact h.length
    next hnew => exact Nat.lt_of_le_of_lt (Nat.le_of_not_lt fun hin => hnew (Table.position_lt.1 hin)) hlt
  · intro i hi
    rw [Table.assign_getElem?, Function.update_apply]
    split
    · rfl
    · exact h.slots i hi
  · exact Table.assign_nodup h.distinct
  · intro e he
    obtain rfl | he := Table.mem_assign he
    · exact ⟨hfrom, hto, hne⟩
    · exact h.drives e he

end Step

/-- What a command comes to. A table without a slot refuses every other drive. -/
inductive Mapped (c : MapCommand) (map : DriveMap) (l : List (Nat × Nat)) : Option GrubError × DriveMap → Prop where
  | refused {err : GrubError} (succeeds : c.succeeds l = none) : Mapped c map l (some err, map)
  | mapped {map' : DriveMap} (succeeds : (c.succeeds l).isSome) (represents : Represents map' (c.mapped l)) : Mapped c map l (none, map')

section Runs
variable {map : DriveMap} {l : List (Nat × Nat)} {c : MapCommand} {cmds : List MapCommand}

theorem mapFunc_mapped (c : MapCommand) (h : Represents map l) : Mapped c map l (mapFunc c.globals c.arg map) := by
  unfold mapFunc
  generalize hto : c.globals.currentDrive c.arg = named
  obtain err | toDrive := named
  · have hdrives : c.drives = none := by
      rw [MapCommand.drives, hto]
      rfl
    exact .refused (by rw [MapCommand.succeeds, hdrives]; rfl)
  generalize hfrom : c.globals.currentDrive (skipTo false c.arg) = named
  obtain err | fromDrive := named
  · have hdrives : c.drives = none := by
      rw [MapCommand.drives, hto, hfrom]
      rfl
    exact .refused (by rw [MapCommand.succeeds, hdrives]; rfl)
  have hdrives : c.drives = some (fromDrive, toDrive) := by
    rw [MapCommand.drives, hto, hfrom]
    rfl
  dsimp only
  rw [h.search]
  split
  next hfull =>
    have hlength : l.length = driveMapSize := Nat.le_antisymm h.length (hfull ▸ Table.position_le)
    have habsent : fromDrive ∉ l.map Prod.fst := fun hmem => Nat.lt_irrefl _ (hlength ▸ hfull ▸ Table.position_lt.2 hmem)
    apply Mapped.refused
    rw [MapCommand.succeeds, hdrives, Option.filter_some, if_neg]
    rw [decide_eq_true_iff]
    exact fun hroom => hroom.elim habsent (Nat.not_lt.2 (Nat.le_of_eq hlength.symm))
  next hroom =>
    have hlt : position fromDrive l < driveMapSize := Nat.lt_of_le_of_ne (Nat.le_trans Table.position_le h.length) hroom
    have hsucceeds : c.succeeds l = some (fromDrive, toDrive) := by
      rw [MapCommand.succeeds, hdrives, Option.filter_some, if_pos]
      rw [decide_eq_true_iff]
      by_cases hmem : fromDrive ∈ l.map Prod.fst
      · exact .inl hmem
      · exact .inr (Nat.lt_of_le_of_lt (Nat.le_of_not_lt fun hin => hmem (Table.position_lt.1 hin)) hlt)
    have hmapped : c.mapped l = if toDrive = fromDrive then remove fromDrive l else assign fromDrive toDrive l := by
      rw [MapCommand.mapped, hsucceeds]
    split
    next heq =>
      apply Mapped.mapped (by rw [hsucceeds]; rfl)
      rw [hmapped, if_pos heq]
      exact h.delete hlt
    next hne =>
      apply Mapped.mapped (by rw [hsucceeds]; rfl)
      rw [hmapped, if_neg hne]
      exact h.insert hlt (Drives.currentDrive_lt hfrom) (Drives.currentDrive_lt hto) (Ne.symm hne)

theorem start_represents (memory : DriveMap) : Represents memory.start [] :=
  ⟨Nat.zero_le _, fun _ hi => if_pos hi, List.Pairwise.nil, fun _ he => absurd he List.not_mem_nil⟩

/-- Behind the table nothing is written. -/
theorem mapFunc_behind (g : Drives) (arg : List Byte) (map : DriveMap) {i : Nat} (hi : driveMapSize < i) :
    (mapFunc g arg map).2 i = map i := by
  unfold mapFunc
  split
  · rfl
  split
  · rfl
  dsimp only
  split
  · rfl
  next hroom =>
    split
    · exact if_neg fun hc => absurd hc.2 (Nat.not_lt.2 (Nat.le_of_lt hi))
    · apply Function.update_of_ne
      rintro rfl
      unfold DriveMap.search at hi
      generalize hfind : (List.range driveMapSize).find? _ = found at hi
      obtain _ | j := found
      · exact Nat.lt_irrefl _ hi
      · have hj := List.mem_range.1 (List.find?_range_eq_some.1 hfind).2.1
        exact absurd hj (Nat.not_lt.2 (Nat.le_of_lt hi))

/-- What a command does to a drive. -/
theorem MapCommand.mapped_lookup (c : MapCommand) (h : (l.map Prod.fst).Nodup) (drive : Nat) :
    ((c.mapped l).lookup drive).getD drive = ((c.succeeds l).toList.lookup drive).getD ((l.lookup drive).getD drive) := by
  unfold MapCommand.mapped
  generalize c.succeeds l = succeeds
  obtain _ | ⟨fromDrive, toDrive⟩ := succeeds
  · rfl
  show _ = (List.lookup drive [(fromDrive, toDrive)]).getD _
  dsimp only
  rw [List.lookup_cons]
  split
  next hsame =>
    subst hsame
    rw [Table.lookup_remove h]
    by_cases heq : drive = toDrive
    · rw [if_pos heq, beq_iff_eq.2 heq]
      exact heq
    · rw [if_neg heq, beq_false_of_ne heq]
      rfl
  next =>
    rw [Table.lookup_assign]
    by_cases heq : drive = fromDrive
    · rw [if_pos heq, beq_iff_eq.2 heq]
      rfl
    · rw [if_neg heq, beq_false_of_ne heq]
      rfl

/-- A session of commands: the table, and what the last commands say of a drive. -/
theorem runMap_represents (h : Represents map l) (cmds : List MapCommand) :
    Represents (runMap cmds map) (cmds.foldl (fun l c => c.mapped l) l) ∧ ∀ drive,
      ((cmds.foldl (fun l c => c.mapped l) l).lookup drive).getD drive =
      ((accepted cmds l).reverse.lookup drive).getD ((l.lookup drive).getD drive) := by
  induction cmds generalizing map l with
  | nil => exact ⟨h, fun drive => rfl⟩
  | cons c cmds ih =>
    have hstep : Represents (mapFunc c.globals c.arg map).2 (c.mapped l) := by
      have hmapped := mapFunc_mapped c h
      generalize mapFunc c.globals c.arg map = result at hmapped
      cases hmapped with
      | refused succeeds =>
        rw [MapCommand.mapped, succeeds]
        exact h
      | mapped succeeds represents => exact represents
    obtain ⟨hrun, htargets⟩ := ih hstep
    refine ⟨hrun, fun drive => ?_⟩
    have hreverse : (c.succeeds l).toList.reverse = (c.succeeds l).toList := by cases c.succeeds l <;> rfl
    rw [List.foldl_cons, htargets, c.mapped_lookup h.distinct, accepted, List.reverse_append, List.lookup_append, hreverse]
    cases (accepted cmds (c.mapped l)).reverse.lookup drive <;> rfl

/-- **The table of `map`** after any commands is a finite map from drives to drives, without a
gap, closed by zero and within its bounds; `boot` finds in it the target of the last command for
a drive. A command succeeds exactly when both of its words name drives and the one that is mapped
has an entry or there is room for one; one that fails leaves the table as it was. -/
theorem driveMap_finite (cmds : List MapCommand) (memory : DriveMap) :
    Represents (runMap cmds memory.start) (mappedBy cmds) ∧ (∀ i, driveMapSize < i → runMap cmds memory.start i = memory i) ∧
      (∀ drive, (runMap cmds memory.start).boot drive = target (accepted cmds []) drive) ∧
      ∀ c : MapCommand, ((mapFunc c.globals c.arg (runMap cmds memory.start)).1 = none ↔ (c.succeeds (mappedBy cmds)).isSome) ∧
        ((mapFunc c.globals c.arg (runMap cmds memory.start)).1 ≠ none →
          (mapFunc c.globals c.arg (runMap cmds memory.start)).2 = runMap cmds memory.start) := by
  obtain ⟨hrun, htargets⟩ := runMap_represents (start_represents memory) cmds
  refine ⟨hrun, fun i hi => ?_, fun drive => ?_, fun c => ?_⟩
  · have hbehind : ∀ map : DriveMap, runMap cmds map i = map i := by
      clear htargets hrun
      intro map
      induction cmds generalizing map with
      | nil => rfl
      | cons c cmds ih => exact (ih _).trans (mapFunc_behind c.globals c.arg map hi)
    rw [hbehind]
    exact if_neg (Nat.not_le.2 hi)
  · rw [hrun.boot, htargets]
    rfl
  · have hmapped := mapFunc_mapped c hrun
    rw [← mappedBy] at hmapped
    generalize mapFunc c.globals c.arg (runMap cmds memory.start) = result at hmapped
    cases hmapped with
    | refused succeeds =>
      rw [succeeds]
      exact ⟨⟨nofun, nofun⟩, fun _ => rfl⟩
    | mapped succeeds represents => exact ⟨iff_of_true rfl succeeds, fun hfails => absurd rfl hfails⟩

end Runs

end TrustedGrub.Builtins
