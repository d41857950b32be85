import TrustedGrub.Drive.Rawread
import Mathlib.Tactic.Ring

/-!
# What the BIOS calls do

One lemma for each: the geometry that `get_diskinfo` returns describes the drive, and a
`biosdisk` leaves everything alone but the sectors it transfers.
-/

namespace TrustedGrub.Drive
open Fips180 (Byte)
open Disk (GrubError sectorSize)
open Memory (slice store)

variable {ω : Type} {fw : Firmware ω}

/-- The BIOS describes its drives as it addresses them. -/
structure Firmware.Sound (fw : Firmware ω) : Prop where
  /-- AH=08h counts heads from zero. -/
  registers : ∀ world unit, (fw.registers world unit).1.good →
    fw.sectorBytes unit = sectorSize ∧ fw.heads unit = (fw.registers world unit).1.dh.toNat + 1 ∧
      fw.sectors unit = (fw.registers world unit).1.cl.toNat % 0x40
  noEmulation : ∀ world unit cdrp, (fw.specPacket world unit).1 = some cdrp → cdrp.driveNo.toNat = unit →
    cdrp.mediaType.toNat % 0x10 = 0 → fw.sectorBytes unit = 2048
  emulation : ∀ world unit cdrp, (fw.specPacket world unit).1 = some cdrp → cdrp.driveNo.toNat = unit →
    cdrp.mediaType.toNat % 0x10 ≠ 0 →
      fw.sectorBytes unit = sectorSize ∧ 0 < fw.heads unit ∧ fw.heads unit = cdrp.heads.toNat ∧
        0 < fw.sectors unit ∧ fw.sectors unit = cdrp.sectors.toNat % 0x40

/-- The geometry is one of the drive, and a track of it fits into the buffer. -/
structure Described (fw : Firmware ω) (unit : Nat) (g : Geometry) : Prop where
  bytes : fw.sectorBytes unit = g.sectorSize
  size : g.sectorSize = 512 ∨ g.sectorSize = 2048
  sectors_pos : 0 < g.sectors
  heads_pos : 0 < g.heads
  fits : g.sectors * g.sectorSize ≤ bufferLen
  /-- A CD-ROM without emulation has no cylinders. -/
  addressed : g.cylinders = 0 ∨ (g.heads = fw.heads unit ∧ g.sectors = fw.sectors unit)

/-! ## `get_diskinfo` -/

theorem getCdinfo_described (hfw : fw.Sound) {drive : Int} {g g' : Geometry} {world : ω}
    (h : (getCdinfo fw drive g world).1 = some g') : Described fw (unit drive) g' := by
  have hspec := hfw.noEmulation world (unit drive)
  have hemu := hfw.emulation world (unit drive)
  simp only [getCdinfo] at h
  match hp : fw.specPacket world (unit drive) with
  | (none, _) => simp only [hp, reduceCtorEq] at h
  | (some cdrp, _) =>
    simp only [hp] at h hspec hemu
    by_cases hno : (cdrp.driveNo.toNat : Int) = drive
    · have hunit : cdrp.driveNo.toNat = unit drive := by unfold unit; omega
      simp only [ne_eq, hno, not_true_eq_false, if_false] at h
      by_cases hmedia : cdrp.mediaType.toNat % 0x10 = 0
      · simp only [if_pos hmedia, Option.some.injEq] at h
        subst h
        exact ⟨hspec cdrp rfl hunit hmedia, .inr rfl, by decide, by decide, by decide, .inl rfl⟩
      · simp only [if_neg hmedia, Option.some.injEq] at h
        subst h
        obtain ⟨hbytes, hhpos, hheads, hspos, hsectors⟩ := hemu cdrp rfl hunit hmedia
        refine ⟨hbytes, .inl rfl, by rw [← hsectors]; exact hspos, by rw [← hheads]; exact hhpos, ?_, .inr ⟨hheads.symm, hsectors.symm⟩⟩
        have : cdrp.sectors.toNat % 0x40 < 0x40 := Nat.mod_lt _ (by decide)
        simp only [sectorSize, bufferLen]
        omega
    · simp only [ne_eq, hno, not_false_eq_true, if_true, reduceCtorEq] at h

theorem getDiskinfoTotal_described (hfw : fw.Sound) {drive : Int} {total : Nat} {g : Geometry} {world : ω}
    (h : (getDiskinfoTotal fw drive total g world).1 = true) :
    Described fw (unit drive) (getDiskinfoTotal fw drive total g world).2.1 := by
  have hreg := hfw.registers world (unit drive)
  simp only [getDiskinfoTotal, getDiskinfoStandard] at h ⊢
  by_cases hgood : (fw.registers world (unit drive)).1.good
  · obtain ⟨hbytes, hheads, hsectors⟩ := hreg hgood
    simp only [hgood, decide_true, if_true]
    refine ⟨hbytes, .inl rfl, Nat.pos_of_ne_zero hgood.2, Nat.succ_pos _, ?_, .inr ⟨hheads.symm, hsectors.symm⟩⟩
    have : (fw.registers world (unit drive)).1.cl.toNat % 0x40 < 0x40 := Nat.mod_lt _ (by decide)
    simp only [sectorSize, bufferLen]
    omega
  · simp only [hgood, decide_false, Bool.false_eq_true, if_false] at h

theorem getDiskinfoHard_described (hfw : fw.Sound) {drive : Int} {version : Nat} {g : Geometry} {world : ω}
    (h : (getDiskinfoHard fw drive version g world).1 = true) :
    Described fw (unit drive) (getDiskinfoHard fw drive version g world).2.1 := by
  unfold getDiskinfoHard at h ⊢
  split
  next hversion =>
    rw [if_pos hversion] at h
    split
    all_goals
      next hp =>
        simp only [hp] at h
        exact getDiskinfoTotal_described hfw h
  next hversion =>
    rw [if_neg hversion] at h
    exact getDiskinfoTotal_described hfw h

/-- The geometry that `get_diskinfo` returns describes the drive. -/
theorem getDiskinfo_described (hfw : fw.Sound) {drive : Int} {g : Geometry} {world : ω}
    (h : (getDiskinfo fw drive g world).1 = true) : Described fw (unit drive) (getDiskinfo fw drive g world).2.1 := by
  unfold getDiskinfo at h ⊢
  simp only at h ⊢
  split
  next hhard =>
    rw [if_pos hhard] at h
    split
    next hcd =>
      rw [if_pos hcd] at h
      split
      next g' _ hp => exact getCdinfo_described hfw (by rw [hp])
      next hp =>
        simp only [hp] at h
        exact getDiskinfoHard_described hfw h
    next hcd =>
      rw [if_neg hcd] at h
      exact getDiskinfoHard_described hfw h
  next hhard =>
    rw [if_neg hhard] at h
    exact getDiskinfoTotal_described hfw h

/-! ## `biosdisk` -/

/-- The drive finds the sector at `place`. -/
inductive Addressed (fw : Firmware ω) (unit : Nat) (g : Geometry) (sector : Int) : Nat → Prop where
  | packet : Addressed fw unit g sector (sector % 2 ^ 64).toNat
  | chs (h : unsigned sector / g.sectors / g.heads < g.cylinders) : Addressed fw unit g sector
      (fw.place unit (.chs (unsigned sector / g.sectors / g.heads) (unsigned sector / g.sectors % g.heads)
        (unsigned sector % g.sectors + 1)))

/-- A CHS address of the drive's own geometry takes a sector apart and puts it together. -/
theorem Addressed.eq {unit : Nat} {g : Geometry} {sector : Int} {place : Nat} (hd : Described fw unit g)
    (h : Addressed fw unit g sector place) : place = (sector % 2 ^ 64).toNat ∨ place = unsigned sector := by
  cases h with
  | packet => exact .inl rfl
  | chs h =>
    rcases hd.addressed with hzero | ⟨hheads, hsectors⟩
    · rw [hzero] at h
      exact absurd h (Nat.not_lt_zero _)
    · apply Or.inr
      simp only [Firmware.place, ← hheads, ← hsectors, Nat.add_sub_cancel]
      rw [Nat.div_add_mod', Nat.div_add_mod']

/-- A sector that is no negative number stands at its number. -/
theorem Addressed.of_natCast {unit : Nat} {g : Geometry} {s place : Nat} (hd : Described fw unit g)
    (h : Addressed fw unit g (s : Int) place) (hs : s < 2 ^ 31) : place = s := by
  have := h.eq hd
  unfold unsigned at this
  omega

/-- What a call leaves alone: the key, and all memory but the segment that a read fills.
The geometry may lose its LBA flag. -/
structure Attempted (fw : Firmware ω) (op : Operation) (unit nsec segment : Nat) (st st' : State ω) : Prop where
  bufDrive : st'.bufDrive = st.bufDrive
  bufTrack : st'.bufTrack = st.bufTrack
  errnum : st'.errnum = st.errnum
  memLower : st'.memLower = st.memLower
  memUpper : st'.memUpper = st.memUpper
  mem : ∀ a, (op = .write ∨ a < segment ∨ segment + nsec * fw.sectorBytes unit ≤ a) → st'.mem a = st.mem a
  geom : st'.bufGeom = st.bufGeom ∨
    (st.bufGeom.lbaExtension = true ∧ st.bufGeom.cdrom = false ∧ st'.bufGeom = st.bufGeom.withoutLba)

theorem Attempted.refl (fw : Firmware ω) (op : Operation) (unit nsec segment : Nat) (st : State ω) :
    Attempted fw op unit nsec segment st st := ⟨rfl, rfl, rfl, rfl, rfl, fun _ _ => rfl, .inl rfl⟩

variable {op : Operation} {unit' nsec segment err : Nat} {drive sector : Int} {st st₁ st' : State ω}

theorem Attempted.trans (h : Attempted fw op unit' nsec segment st st₁) (h' : Attempted fw op unit' nsec segment st₁ st') :
    Attempted fw op unit' nsec segment st st' where
  bufDrive := h'.bufDrive.trans h.bufDrive
  bufTrack := h'.bufTrack.trans h.bufTrack
  errnum := h'.errnum.trans h.errnum
  memLower := h'.memLower.trans h.memLower
  memUpper := h'.memUpper.trans h.memUpper
  mem a ha := (h'.mem a ha).trans (h.mem a ha)
  geom := by
    rcases h.geom, h'.geom with ⟨hg | hg, hg' | hg'⟩
    · exact .inl (hg'.trans hg)
    · rw [hg] at hg'
      exact .inr hg'
    · rw [hg']
      exact .inr hg
    · -- the flag is lost only once
      rw [hg.2.2] at hg'
      exact absurd hg'.1 Bool.false_ne_true

/-- What `biosdisk` comes to. -/
structure Called (fw : Firmware ω) (op : Operation) (drive sector : Int) (nsec segment : Nat) (st : State ω) (err : Nat)
    (st' : State ω) : Prop where
  attempted : Attempted fw op (unit drive) nsec segment st st'
  disk : op = .read ∨ err ≠ 0 → st'.disk = st.disk
  read : op = .read → err = 0 → ∃ place, Addressed fw (unit drive) st.bufGeom sector place ∧
    slice st'.mem segment (nsec * fw.sectorBytes (unit drive)) =
      slice (st.disk (unit drive)) (place * fw.sectorBytes (unit drive)) (nsec * fw.sectorBytes (unit drive))
  written : op = .write → err = 0 → ∃ place, Addressed fw (unit drive) st.bufGeom sector place ∧
    st'.disk = Function.update st.disk (unit drive) (store (st.disk (unit drive)) (place * fw.sectorBytes (unit drive))
      (slice st.mem segment (nsec * fw.sectorBytes (unit drive))))
  /-- A call that has lost the LBA flag has reached a cylinder of the geometry. -/
  fallback : err = 0 → st'.bufGeom ≠ st.bufGeom → unsigned sector / st.bufGeom.sectors / st.bufGeom.heads < st.bufGeom.cylinders

theorem State.spoiled_attempted (st : State ω) (op : Operation) (unit nsec segment : Nat) :
    Attempted fw op unit nsec segment st (st.spoiled fw op unit nsec segment) := by
  cases op with
  | write => exact .refl _ _ _ _ _ _
  | read =>
    refine ⟨rfl, rfl, rfl, rfl, rfl, fun a ha => ?_, .inl rfl⟩
    rcases ha with ha | ha | ha
    · cases ha
    · exact Memory.store_of_lt ha
    · exact Memory.store_of_ge (by rw [Memory.slice_length]; exact ha)

theorem State.spoiled_disk (st : State ω) (op : Operation) (unit nsec segment : Nat) :
    (st.spoiled fw op unit nsec segment).disk = st.disk := by
  cases op <;> rfl

theorem State.transferred_attempted (st : State ω) (op : Operation) (unit place nsec segment : Nat) :
    Attempted fw op unit nsec segment st (st.transferred fw op unit place nsec segment) := by
  cases op with
  | write => exact ⟨rfl, rfl, rfl, rfl, rfl, fun _ _ => rfl, .inl rfl⟩
  | read =>
    refine ⟨rfl, rfl, rfl, rfl, rfl, fun a ha => ?_, .inl rfl⟩
    rcases ha with ha | ha | ha
    · cases ha
    · exact Memory.store_of_lt ha
    · exact Memory.store_of_ge (by rw [Memory.slice_length]; exact ha)

/-- One INT 13 call, to an address that the geometry gives the sector. -/
theorem int13_called {address : Address} (haddr : Addressed fw (unit drive) st.bufGeom sector (fw.place (unit drive) address))
    (h : int13 fw op drive address nsec segment st = (err, st')) :
    Called fw op drive sector nsec segment st err st' ∧ st'.bufGeom = st.bufGeom := by
  unfold int13 at h
  generalize fw.transfer st.world op (unit drive) address nsec = answer at h
  obtain ⟨status, world⟩ := answer
  simp only at h
  -- the answer itself changes nothing that a call leaves alone
  have hworld : Attempted fw op (unit drive) nsec segment st { st with world } :=
    ⟨rfl, rfl, rfl, rfl, rfl, fun _ _ => rfl, .inl rfl⟩
  split at h
  next hstatus =>
    obtain ⟨rfl, rfl⟩ := Prod.mk.inj h
    refine ⟨⟨hworld.trans (State.transferred_attempted _ _ _ _ _ _), ?_, ?_, ?_, ?_⟩, by cases op <;> rfl⟩
    · rintro (rfl | herr)
      · rfl
      · exact absurd rfl herr
    · rintro rfl -
      exact ⟨_, haddr, Memory.slice_store _ _ (Memory.slice_length _ _ _)⟩
    · rintro rfl -
      exact ⟨_, haddr, rfl⟩
    · intro _ hgeom
      exact absurd (by cases op <;> rfl) hgeom
  next hstatus =>
    obtain ⟨rfl, rfl⟩ := Prod.mk.inj h
    have herr : status.toNat ≠ 0 := fun h0 => hstatus (BitVec.eq_of_toNat_eq h0)
    refine ⟨⟨hworld.trans (State.spoiled_attempted _ _ _ _ _), fun _ => State.spoiled_disk _ _ _ _ _, ?_, ?_, ?_⟩, by cases op <;> rfl⟩
    all_goals
      intros
      contradiction

theorem biosdiskStandard_called (h : biosdiskStandard fw op drive sector nsec segment st = some (err, st')) :
    Called fw op drive sector nsec segment st err st' ∧ st'.bufGeom = st.bufGeom ∧
      (err = 0 → unsigned sector / st.bufGeom.sectors / st.bufGeom.heads < st.bufGeom.cylinders) := by
  simp only [biosdiskStandard] at h
  split at h
  · cases h
  · split at h
    next hcyl =>
      simp only [Option.some.injEq, Prod.mk.injEq] at h
      obtain ⟨rfl, rfl⟩ := h
      have herr : biosdiskErrorGeometry ≠ 0 := by decide
      exact ⟨⟨.refl _ _ _ _ _ _, fun _ => rfl, fun _ h0 => absurd h0 herr, fun _ h0 => absurd h0 herr,
        fun h0 => absurd h0 herr⟩, rfl, fun h0 => absurd h0 herr⟩
    next hcyl =>
      have hcalled := int13_called (.chs (Nat.lt_of_not_le hcyl)) (Option.some.inj h)
      exact ⟨hcalled.1, hcalled.2, fun _ => Nat.lt_of_not_le hcyl⟩

/-- The geometry without the flag gives a sector the same address. -/
theorem Addressed.of_withoutLba {unit place : Nat} {g : Geometry} (h : Addressed fw unit g.withoutLba sector place) :
    Addressed fw unit g sector place := by
  cases h with
  | packet => exact .packet
  | chs h => exact .chs h

/-- What one `biosdisk` can do. -/
theorem biosdisk_called (h : biosdisk fw op drive sector nsec segment st = some (err, st')) :
    Called fw op drive sector nsec segment st err st' := by
  unfold biosdisk at h
  split at h
  next hlba =>
    generalize hfirst : int13 fw op drive (.packet (sector % 2 ^ 64).toNat) nsec segment st = first at h
    obtain ⟨err₁, st₁⟩ := first
    obtain ⟨hcalled, hgeom⟩ := int13_called .packet hfirst
    simp only at h
    split at h
    next hdone =>
      simp only [Option.some.injEq, Prod.mk.injEq] at h
      obtain ⟨rfl, rfl⟩ := h
      exact hcalled
    next hfell =>
      simp only [not_or, Bool.not_eq_true] at hfell
      obtain ⟨hsecond, hsame, hreached⟩ := biosdiskStandard_called h
      have hdisk := hcalled.disk (.inr hfell.1)
      have hlost : Attempted fw op (unit drive) nsec segment st { st₁ with bufGeom := st₁.bufGeom.withoutLba } :=
        ⟨hcalled.attempted.bufDrive, hcalled.attempted.bufTrack, hcalled.attempted.errnum, hcalled.attempted.memLower,
          hcalled.attempted.memUpper, hcalled.attempted.mem, .inr ⟨hlba, by rw [← hgeom]; exact hfell.2, by rw [← hgeom]⟩⟩
      simp only [hgeom] at hsecond hsame hreached hlost
      refine ⟨hlost.trans hsecond.attempted, fun hop => (hsecond.disk hop).trans hdisk, ?_, ?_, fun h0 _ => hreached h0⟩
      · intro hop h0
        obtain ⟨place, haddr, hslice⟩ := hsecond.read hop h0
        exact ⟨place, haddr.of_withoutLba, by rw [hslice, hdisk]⟩
      · intro hop h0
        obtain ⟨place, haddr, hstore⟩ := hsecond.written hop h0
        refine ⟨place, haddr.of_withoutLba, ?_⟩
        have hmem : st₁.mem = st.mem := funext fun a => hcalled.attempted.mem a (.inl hop)
        rw [hstore, hdisk, hmem]
  next hlba => exact (biosdiskStandard_called h).1

theorem biosdiskStandard_isSome (hs : 0 < st.bufGeom.sectors) (hh : 0 < st.bufGeom.heads) :
    ∃ err st', biosdiskStandard fw op drive sector nsec segment st = some (err, st') := by
  simp only [biosdiskStandard]
  rw [if_neg (by omega)]
  split
  · exact ⟨_, _, rfl⟩
  · exact ⟨_, _, rfl⟩

/-- With a geometry that has heads and sectors there is nothing to divide by zero. -/
theorem biosdisk_isSome (fw : Firmware ω) (op : Operation) (drive sector : Int) (nsec segment : Nat) {st : State ω}
    (hs : 0 < st.bufGeom.sectors) (hh : 0 < st.bufGeom.heads) :
    ∃ err st', biosdisk fw op drive sector nsec segment st = some (err, st') := by
  unfold biosdisk
  split
  next hlba =>
    generalize hfirst : int13 fw op drive (.packet (sector % 2 ^ 64).toNat) nsec segment st = first
    obtain ⟨err₁, st₁⟩ := first
    have hgeom := (int13_called .packet hfirst).2
    simp only
    split
    · exact ⟨_, _, rfl⟩
    · apply biosdiskStandard_isSome
      · rw [hgeom]; exact hs
      · rw [hgeom]; exact hh
  next hlba => exact biosdiskStandard_isSome hs hh

theorem Attempted.sectors (h : Attempted fw op unit' nsec segment st st') : st'.bufGeom.sectors = st.bufGeom.sectors := by
  rcases h.geom with hg | ⟨-, -, hg⟩
  · rw [hg]
  · rw [hg]
    rfl

/-- A read of the described drive: it may fail, or the sectors are in the buffer. -/
theorem biosdisk_read (hd : Described fw (unit drive) st.bufGeom) {s : Nat} (hs : s < 2 ^ 31) (nsec segment : Nat) :
    ∃ err st', biosdisk fw .read drive s nsec segment st = some (err, st') ∧
      Called fw .read drive s nsec segment st err st' ∧
      (err = 0 → slice st'.mem segment (nsec * st.bufGeom.sectorSize) =
        slice (st.disk (unit drive)) (s * st.bufGeom.sectorSize) (nsec * st.bufGeom.sectorSize)) := by
  obtain ⟨err, st', h⟩ := biosdisk_isSome fw .read drive s nsec segment hd.sectors_pos hd.heads_pos
  have hcalled := biosdisk_called h
  refine ⟨err, st', h, hcalled, fun h0 => ?_⟩
  obtain ⟨place, haddr, hslice⟩ := hcalled.read rfl h0
  rw [haddr.of_natCast hd hs, hd.bytes] at hslice
  exact hslice

end TrustedGrub.Drive
