import TrustedGrub.Drive.Passes
import Mathlib.Logic.Relation

/-!
# Runs of `rawread` and `rawwrite`

A caller reads and writes on any drive, and clears `errnum` in between. `Call.Orderly`
is what keeps the track buffer coherent: that the BIOS knows the drive, and that a read
of the end of a track does not end there. It asks nothing of a write.
-/

namespace TrustedGrub.Drive
open Fips180 (Byte)
open Disk (GrubError sectorSize)
open Memory (slice store)
open TrustedGrub.Partition (Buffer)

variable {ω : Type} {fw : Firmware ω} {drive : Int} {st st₁ st' : State ω}

/-! ## `rawread` -/

/-- The request starts inside a track and goes on behind it. -/
def Request.CrossesFrom (rq : Request) (g : Geometry) : Prop :=
  0 < rq.sector % g.sectors ∧ (g.sectors - rq.sector % g.sectors) * g.sectorSize < rq.byteOffset + rq.byteLen

/-- The first sector of the track of a sector. -/
def Geometry.trackOf (g : Geometry) (sector : Int) : Int := sector - sector % g.sectors

/-- What a read from inside a track must meet to go on behind it: the next track is there, also
for CHS, the destination can be used, and the sector it starts at is not taken for the map of
an EZD disk. -/
structure State.GoesOn (st : State ω) (hook : Option (Hook ω)) (rq : Request) : Prop where
  int : st.bufGeom.trackOf rq.sector + st.bufGeom.sectors < 2 ^ 31
  next : st.bufGeom.trackOf rq.sector + st.bufGeom.sectors < st.bufGeom.totalSectors
  nextChs : st.bufGeom.lbaExtension = true → st.bufGeom.cdrom = false →
    st.bufGeom.trackOf rq.sector + st.bufGeom.sectors ≠ st.bufGeom.chsSectors
  quiet : Quiet hook
  usable : st.Usable rq.buf ((st.bufGeom.sectors - rq.sector % st.bufGeom.sectors) * st.bufGeom.sectorSize - rq.byteOffset)
  plain : rq.sector < st.bufGeom.sectors →
    isEzd (fun i => st.disk (unit st.bufDrive) (rq.sector.toNat * st.bufGeom.sectorSize + i)) = false

/-- The read keeps the buffer coherent, once its drive is selected. -/
structure State.OrderlyRead (st : State ω) (hook : Option (Hook ω)) (rq : Request) : Prop where
  apart : rq.Apart
  /-- The offset lies in the sector. -/
  offset : 0 ≤ rq.byteOffset ∧ rq.byteOffset < st.bufGeom.sectorSize
  /-- The first track of an EZD disk has a sector 1. -/
  wide : rq.sector < st.bufGeom.sectors → st.bufTrack ≠ 0 → isEzd (st.disk (unit st.bufDrive)) = true →
    1 < st.bufGeom.sectors ∧ st.Usable bufferAddr st.bufGeom.sectorSize
  goesOn : rq.CrossesFrom st.bufGeom → st.bufTrack ≠ st.bufGeom.trackOf rq.sector → st.GoesOn hook rq

/-- What the read shows of the drive. -/
def wanted (fw : Firmware ω) (drive : Int) (rq : Request) (st : State ω) : List Byte :=
  slice (mapped (fw.sectorBytes (unit drive)) (st.disk (unit drive)))
    (rq.sector.toNat * fw.sectorBytes (unit drive) + rq.byteOffset.toNat) rq.byteLen.toNat

theorem Coherent.failed (h : Coherent fw st) (e : GrubError) : Coherent fw (st.failed e) := (SameBuffer.failed st e).coherent h

/-- The selection of a drive that the BIOS knows. -/
theorem selectDrive_spec (hfw : fw.Sound) (hco : Coherent fw st) (h : st.selectDrive fw drive = (true, st₁)) :
    Coherent fw st₁ ∧ st₁.bufDrive = drive ∧ st₁.disk = st.disk ∧ st₁.errnum = st.errnum := by
  unfold State.selectDrive at h
  split at h
  next hsame =>
    obtain ⟨-, rfl⟩ := Prod.mk.inj h
    exact ⟨hco, hsame, rfl, rfl⟩
  next hother =>
    have hdescr := @getDiskinfo_described ω fw hfw drive st.bufGeom st.world
    generalize getDiskinfo fw drive st.bufGeom st.world = answer at hdescr h
    obtain ⟨done, g, world⟩ := answer
    simp only at h
    split at h
    next hdone =>
      obtain ⟨-, rfl⟩ := Prod.mk.inj h
      exact ⟨⟨.inr (hdescr hdone), .inl rfl⟩, rfl, rfl, rfl⟩
    next hdone => exact absurd (Prod.mk.inj h).1 Bool.false_ne_true

theorem Geometry.zero_outside (sector : Int) : Geometry.zero.outside sector := by
  unfold Geometry.outside
  exact .inr (Nat.zero_le _)

/-- The request and its place, in numbers. -/
theorem State.OrderlyRead.at {hook : Option (Hook ω)} {rq : Request} (h : st.OrderlyRead hook rq)
    (hd : Described fw (unit st.bufDrive) st.bufGeom) (hin : ¬ st.bufGeom.outside rq.sector) (hsector : rq.sector < 2 ^ 31)
    (hpos : 0 < rq.byteLen) (hlen : rq.byteLen < 2 ^ 31) :
    ∃ t soff, rq.At st.bufGeom t soff rq.byteOffset.toNat rq.byteLen.toNat ∧ (t : Int) = st.bufGeom.trackOf rq.sector ∧
      (soff : Int) = rq.sector % st.bufGeom.sectors := by
  simp only [Geometry.outside, not_or, Int.not_lt] at hin
  obtain ⟨s, hs⟩ := Int.eq_ofNat_of_zero_le hin.1
  have hoff := h.offset
  have hsplit := Nat.div_add_mod s st.bufGeom.sectors
  refine ⟨st.bufGeom.sectors * (s / st.bufGeom.sectors), s % st.bufGeom.sectors, ⟨?_, ?_, Nat.dvd_mul_right _ _,
    Nat.mod_lt _ hd.sectors_pos, by omega, by omega, by omega, by omega, by omega⟩, ?_, ?_⟩
  · rw [hsplit, hs]
  · rw [hsplit]
    omega
  · unfold Geometry.trackOf
    rw [hs, ← Int.natCast_emod]
    omega
  · rw [hs, ← Int.natCast_emod]

/-- A fallback to CHS has read a track of the geometry, so that the next one ends where the
geometry does, at the latest. -/
theorem nextTrack_le_chs {g : Geometry} {t soff : Nat} (hheads : 0 < g.heads) (haligned : g.sectors ∣ t) (hsoff : soff < g.sectors)
    (h : (t + soff) / g.sectors / g.heads < g.cylinders) : t + g.sectors ≤ g.chsSectors := by
  obtain ⟨q, rfl⟩ := haligned
  have hpos : 0 < g.sectors := Nat.lt_of_le_of_lt (Nat.zero_le _) hsoff
  rw [Nat.mul_add_div hpos, Nat.div_eq_of_lt hsoff, Nat.add_zero] at h
  unfold Geometry.chsSectors
  have hq : q + 1 ≤ g.cylinders * g.heads := (Nat.div_lt_iff_lt_mul hheads).1 h
  calc g.sectors * q + g.sectors = (q + 1) * g.sectors := by ring
    _ ≤ g.cylinders * g.heads * g.sectors := Nat.mul_le_mul_right _ hq

theorem Request.At.crosses {g : Geometry} {rq : Request} {t soff : Nat}
    (hat : rq.At g t soff rq.byteOffset.toNat rq.byteLen.toNat) (hoff : 0 ≤ rq.byteOffset)
    (hsoff : (soff : Int) = rq.sector % g.sectors) (hinside : 0 < soff)
    (hruns : (g.sectors - soff) * g.sectorSize < rq.byteOffset.toNat + rq.byteLen.toNat) : rq.CrossesFrom g := by
  have hpos := hat.n_pos
  refine ⟨by omega, ?_⟩
  rw [← hsoff, ← Int.ofNat_sub hat.soff_lt.le]
  omega

/-- The key that a pass leaves: true, or of a track that the next pass replaces. -/
theorem Passed.keyed {hook : Option (Hook ω)} {rq : Request} {t soff : Nat} {bytes : List Byte}
    (hpassed : Passed hook rq.buf t soff rq.byteOffset.toNat rq.byteLen.toNat st bytes st')
    (hd : Described fw (unit st.bufDrive) st.bufGeom) (horderly : st.OrderlyRead hook rq)
    (hat : rq.At st.bufGeom t soff rq.byteOffset.toNat rq.byteLen.toNat) (htrack : (t : Int) = st.bufGeom.trackOf rq.sector)
    (hsoff : (soff : Int) = rq.sector % st.bufGeom.sectors) {next : Int}
    (hcases : (t + st.bufGeom.sectors < 2 ^ 31 ∧ next = (t + st.bufGeom.sectors : Nat)) ∨
      (2 ^ 31 ≤ t + st.bufGeom.sectors ∧ next = (t + st.bufGeom.sectors : Nat) - 2 ^ 32)) :
    st'.Keyed ∨ (st'.errnum = .none ∧ 0 < rq.byteLen.toNat - st.bufGeom.pieceSize soff rq.byteOffset.toNat rq.byteLen.toNat ∧
      ¬ st'.bufGeom.outside next ∧ st'.bufTrack ≠ next) := by
  have hlt : t < 2 ^ 31 := by
    have := hat.small
    omega
  rcases hpassed.key with hnone | hholds | ⟨hinside, hfresh, hruns, hkey, hclear, hfallback⟩
  · exact .inl (.inl hnone)
  · exact .inl (.inr ⟨t, hholds⟩)
  · apply Or.inr
    have hcross := hat.crosses horderly.offset.1 hsoff hinside hruns
    have hgoes := horderly.goesOn hcross (by rw [← htrack]; exact hfresh)
    have hint := hgoes.int
    have hnext := hgoes.next
    rw [← htrack] at hint hnext
    have hmod : next = (t + st.bufGeom.sectors : Nat) := by
      rcases hcases with ⟨-, h⟩ | ⟨hge, -⟩
      · exact h
      · omega
    have hroom : st.bufGeom.sectorSize ≤ (st.bufGeom.sectors - soff) * st.bufGeom.sectorSize :=
      Nat.le_mul_of_pos_left _ (Nat.sub_pos_of_lt hat.soff_lt)
    have hb := hat.b_lt
    have hsize : st.bufGeom.pieceSize soff rq.byteOffset.toNat rq.byteLen.toNat =
        (st.bufGeom.sectors - soff) * st.bufGeom.sectorSize - rq.byteOffset.toNat := by
      unfold Geometry.pieceSize
      omega
    refine ⟨hclear hgoes.quiet ?_, by omega, ?_, ?_⟩
    · have husable := hgoes.usable
      rw [← hsoff, ← Int.ofNat_sub hat.soff_lt.le] at husable
      have hoff := horderly.offset.1
      have harg : ((st.bufGeom.pieceSize soff rq.byteOffset.toNat rq.byteLen.toNat : Nat) : Int) =
          ((st.bufGeom.sectors - soff : Nat) : Int) * st.bufGeom.sectorSize - rq.byteOffset := by
        rw [hsize, ← Int.natCast_mul]
        omega
      rw [harg]
      exact husable
    · rw [hmod]
      have htotal : t + st.bufGeom.sectors < st'.bufGeom.totalSectors := by
        rcases hpassed.kept.geom with hsame | ⟨hlba, hcd, hlost⟩
        · rw [hsame]
          omega
        · -- the limit is now that of the CHS geometry
          have hchanged : st'.bufGeom ≠ st.bufGeom := by
            intro h
            rw [h] at hlost
            rw [hlost] at hlba
            exact Bool.false_ne_true hlba
          have hle := nextTrack_le_chs hd.heads_pos hat.aligned hat.soff_lt (hfallback hchanged)
          have hne := hgoes.nextChs hlba hcd
          rw [← htrack] at hne
          rw [hlost]
          simp only [Geometry.withoutLba]
          omega
      unfold Geometry.outside
      rw [unsigned_natCast (by omega)]
      omega
    · rw [hmod, hkey]
      have := hd.sectors_pos
      omega

/-- A read from a coherent state delivers what is on the drive, or fails, and leaves the state
coherent. -/
theorem rawread_spec (hfw : fw.Sound) (hco : Coherent fw st) (hook : Option (Hook ω)) (rq : Request) (hsector : rq.sector < 2 ^ 31)
    (hlen : rq.byteLen < 2 ^ 31) (horderly : 0 < rq.byteLen → st.errnum = .none →
      ∃ st₁, st.selectDrive fw drive = (true, st₁) ∧ (¬ st₁.bufGeom.outside rq.sector → st₁.OrderlyRead hook rq)) :
    ∃ ok bytes st', rawread fw hook drive rq st = some (ok, bytes, st') ∧ Coherent fw st' ∧ st'.disk = st.disk ∧
      (ok = true → bytes = wanted fw drive rq st) := by
  unfold rawread
  by_cases hnone : rq.byteLen ≤ 0
  · rw [if_pos hnone]
    refine ⟨true, [], st, rfl, hco, rfl, fun _ => ?_⟩
    unfold wanted
    rw [Int.toNat_of_nonpos hnone, Memory.slice_zero]
  · rw [if_neg hnone]
    have hpos : 0 < rq.byteLen := Int.not_le.1 hnone
    rw [rawreadLoop]
    by_cases hok : st.errnum = .none
    · obtain ⟨st₁, hselect, horder⟩ := horderly hpos hok
      obtain ⟨hco₁, hdrive, hdisk, herr⟩ := selectDrive_spec hfw hco hselect
      rw [if_pos ⟨hpos, hok⟩]
      simp only [hselect, if_true]
      by_cases hout : st₁.bufGeom.outside rq.sector
      · refine ⟨false, [], st₁.failed .geom, ?_, hco₁.failed _, hdisk, fun h => absurd h Bool.false_ne_true⟩
        simp only [State.pass, if_pos hout]
      · have hd : Described fw (unit st₁.bufDrive) st₁.bufGeom := by
          rcases hco₁.described with ⟨-, hzero⟩ | hd
          · rw [hzero] at hout
            exact absurd (Geometry.zero_outside _) hout
          · exact hd
        have horderly₁ := horder hout
        obtain ⟨t, soff, hat, htrack, hsoff⟩ := horderly₁.at hd hout hsector hpos hlen
        have hplace := hat.sector
        have hlt : t < 2 ^ 31 := by
          have := hat.small
          omega
        have hkey : st₁.bufTrack = t → st₁.Holds t := by
          intro hcached
          rcases hco₁.track with hnone | ⟨t', ht'⟩
          · omega
          · obtain rfl : t' = t := by
              have := ht'.key
              omega
            exact ht'
        have hsafe : st₁.bufTrack ≠ t → MapSafe st₁ t soff rq.byteOffset.toNat rq.byteLen.toNat := by
          intro hfresh
          have hin := hat.soff_lt
          refine ⟨fun hzero hezd => horderly₁.wide (by omega) (by omega) hezd, fun hzero hinside hruns => ?_⟩
          have hgoes := horderly₁.goesOn (hat.crosses horderly₁.offset.1 hsoff hinside hruns) (by rw [← htrack]; exact hfresh)
          have hplain := hgoes.plain (by omega)
          rwa [hplace, hzero, Nat.zero_add, Int.toNat_natCast] at hplain
        obtain ⟨bytes, st₂, hpass, hpassed⟩ := pass_spec hook hd hat horderly₁.apart (herr.trans hok) hout hkey hsafe
        have hkept := hpassed.kept
        have hsize := hat.piece_pos
        have hpart : st₁.bufGeom.pieceSize soff rq.byteOffset.toNat rq.byteLen.toNat ≤ rq.byteLen.toNat := Nat.min_le_left _ _
        have hd₂ : Described fw (unit st₂.bufDrive) st₂.bufGeom := by rw [hkept.bufDrive]; exact hkept.described hd
        have hne := (nextTrack_ne hd hlt).2
        have haligned := nextTrack_aligned hd hkept hat.aligned hlt
          (n := rq.byteLen.toNat - st₁.bufGeom.pieceSize soff rq.byteOffset.toNat rq.byteLen.toNat) (by omega)
          (horderly₁.apart.rest hat.byteLen _ _ _)
        have hcases := nextTrack_cases hd hlt
        rw [hdrive] at hpass
        generalize Int.bmod (t + st₁.bufGeom.sectors : Nat) (2 ^ 32) = next at hpass hne haligned hcases
        have hkeyed := hpassed.keyed hd horderly₁ hat htrack hsoff hcases
        obtain ⟨ok, rest, st', hloop, hkept', hkeyed', hdata⟩ := rawreadLoop_aligned hook (rq.byteLen.toNat + 1) ([] ++ bytes)
          hd₂ haligned (by omega) (fun hzero => absurd hzero hne) hkeyed
        rw [hkept.bufDrive, hdrive] at hloop
        refine ⟨ok, bytes ++ rest, st', by simp only [hpass]; exact hloop, ⟨.inr ?_, hkeyed'⟩,
          (hkept'.disk.trans hkept.disk).trans hdisk, fun hdone => ?_⟩
        · rw [hkept'.bufDrive]
          exact hkept'.described hd₂
        · obtain ⟨hrest, hpos'⟩ := hdata hdone
          rw [hdone] at hloop
          have hbytes := hpassed.data (rawreadLoop_ok hook hloop)
          rw [hkept.sectorSize, hkept.disk, hkept.bufDrive] at hrest
          rw [hbytes, hrest, hat.pieces_append hd hcases hpos']
          unfold wanted
          rw [← hdrive, ← hdisk, hd.bytes, hplace, Int.toNat_natCast]
    · rw [if_neg (fun h => hok h.2)]
      refine ⟨_, [], st, rfl, hco, rfl, fun h => ?_⟩
      exact absurd (by simpa using h) hok

/-! ## `rawwrite` -/

/-- The buffer holds a valid copy of the sector. -/
def State.Caches (st : State ω) (unit' : Nat) (sector : Int) : Prop :=
  unit st.bufDrive = unit' ∧ st.bufTrack ≠ -1 ∧ st.bufTrack ≤ sector ∧ sector < st.bufTrack + st.bufGeom.sectorsPerVtrack

/-- The sector that a write for `sector` overwrites. -/
def written (drive sector : Int) (st : State ω) : Int :=
  if sector = 0 ∧ isEzd (st.disk (unit drive)) then 1 else sector

variable {op : Operation} {unit' nsec : Nat} {sector : Int} {buf : Buffer}

/-- What happens in the scratch area is nothing to the buffer. -/
structure ScratchOnly (st st' : State ω) : Prop where
  bufDrive : st'.bufDrive = st.bufDrive
  bufTrack : st'.bufTrack = st.bufTrack
  disk : st'.disk = st.disk
  mem : ∀ a, a < scratchAddr → st'.mem a = st.mem a
  geom : st'.bufGeom = st.bufGeom ∨
    (st.bufGeom.lbaExtension = true ∧ st.bufGeom.cdrom = false ∧ st'.bufGeom = st.bufGeom.withoutLba)

theorem Attempted.scratchOnly (h : Attempted fw op unit' nsec scratchAddr st st') (hdisk : st'.disk = st.disk) :
    ScratchOnly st st' :=
  ⟨h.bufDrive, h.bufTrack, hdisk, fun a ha => h.mem a (.inr (.inl ha)), h.geom⟩

theorem memmove_scratchOnly (st : State ω) (bytes : List Byte) : ScratchOnly st (st.memmove scratchAddr bytes) := by
  have hcheck : ScratchOnly st (st.memcheck scratchAddr bytes.length) := by
    unfold State.memcheck
    split
    · exact ⟨rfl, rfl, rfl, fun _ _ => rfl, .inl rfl⟩
    · exact ⟨rfl, rfl, rfl, fun _ _ => rfl, .inl rfl⟩
  simp only [State.memmove]
  split
  · exact ⟨hcheck.bufDrive, hcheck.bufTrack, hcheck.disk, fun a ha => (Memory.store_of_lt ha).trans (hcheck.mem a ha), hcheck.geom⟩
  · exact hcheck

/-- A track fits, also before there is a geometry. -/
theorem Coherent.fits (hco : Coherent fw st) : st.bufGeom.sectors * st.bufGeom.sectorSize ≤ bufferLen := by
  rcases hco.described with ⟨-, hzero⟩ | hd
  · rw [hzero]
    decide
  · exact hd.fits

theorem ScratchOnly.sectors (h : ScratchOnly st st') : st'.bufGeom.sectors = st.bufGeom.sectors := by
  rcases h.geom with hg | ⟨-, -, hg⟩
  · rw [hg]
  · rw [hg]
    rfl

theorem ScratchOnly.sectorSize (h : ScratchOnly st st') : st'.bufGeom.sectorSize = st.bufGeom.sectorSize := by
  rcases h.geom with hg | ⟨-, -, hg⟩
  · rw [hg]
  · rw [hg]
    rfl

theorem ScratchOnly.coherent (h : ScratchOnly st st') (hco : Coherent fw st) : Coherent fw st' where
  described := by
    rw [h.bufDrive]
    rcases hco.described with ⟨hdrive, hzero⟩ | hd
    · apply Or.inl
      rcases h.geom with hg | ⟨hlba, -, -⟩
      · exact ⟨hdrive, hg.trans hzero⟩
      · rw [hzero] at hlba
        exact absurd hlba Bool.false_ne_true
    · apply Or.inr
      rcases h.geom with hg | ⟨-, -, hg⟩
      · rw [hg]; exact hd
      · rw [hg]; exact ⟨hd.bytes, hd.size, hd.sectors_pos, hd.heads_pos, hd.fits, hd.addressed⟩
  track := by
    rcases hco.track with hnone | ⟨t, ht⟩
    · exact .inl (h.bufTrack.trans hnone)
    · have hmem : slice st'.mem bufferAddr (st.bufGeom.sectors * st.bufGeom.sectorSize) =
          slice st.mem bufferAddr (st.bufGeom.sectors * st.bufGeom.sectorSize) := by
        refine Memory.slice_congr fun a _ hhi => h.mem a ?_
        have hfits := hco.fits
        have hend : bufferAddr + bufferLen = scratchAddr := rfl
        omega
      refine .inr ⟨t, h.bufTrack.trans ht.key, ht.small, ?_, ?_, ?_⟩
      · rw [h.sectors]; exact ht.aligned
      · rw [h.sectors, h.sectorSize, hmem, h.disk, h.bufDrive]; exact ht.data
      · rw [h.sectors, h.disk, h.bufDrive]; exact ht.wide

/-- The contents of a track, of two disks that agree there. -/
theorem slice_mapped_congr {bytes t n : Nat} {disk disk' : Nat → Byte} (hbytes : 512 ≤ bytes) (hn : 0 < n)
    (hagree : ∀ i, t * bytes ≤ i → i < t * bytes + n * bytes → disk' i = disk i)
    (hwide : t = 0 → n = 1 → isEzd disk = false) :
    slice (mapped bytes disk') (t * bytes) (n * bytes) = slice (mapped bytes disk) (t * bytes) (n * bytes) ∧
      (t = 0 → n = 1 → isEzd disk' = false) := by
  have hfirst : bytes ≤ n * bytes := Nat.le_mul_of_pos_left _ hn
  have hsame : t = 0 → isEzd disk' = isEzd disk := by
    rintro rfl
    refine isEzd_congr hbytes (Memory.slice_congr fun i _ hi => hagree i (by omega) (by omega))
  refine ⟨Memory.slice_congr fun i hlo hhi => ?_, fun hzero hone => (hsame hzero).trans (hwide hzero hone)⟩
  rcases Nat.eq_zero_or_pos t with rfl | hpos
  · unfold mapped
    rw [hsame rfl]
    by_cases hmap : i < bytes ∧ isEzd disk = true
    · rw [if_pos hmap, if_pos hmap]
      have htwo : n ≠ 1 := fun hone => by
        rw [hwide rfl hone] at hmap
        exact Bool.false_ne_true hmap.2
      have hroom : 2 * bytes ≤ n * bytes := Nat.mul_le_mul_right _ (by omega)
      exact hagree _ (by omega) (by omega)
    · rw [if_neg hmap, if_neg hmap]
      exact hagree i hlo hhi
  · have hout : ¬ i < bytes := by
      have := Nat.le_mul_of_pos_left bytes hpos
      omega
    unfold mapped
    rw [if_neg (fun h => hout h.1), if_neg (fun h => hout h.1)]
    exact hagree i hlo hhi

/-- The sectors of a track are those whose number the cache test rounds down to it. -/
theorem mod_track {n t s : Nat} (haligned : n ∣ t) (hlo : t ≤ s) (hhi : s < t + n) : s - s % n = t := by
  obtain ⟨q, rfl⟩ := haligned
  obtain ⟨d, rfl⟩ := Nat.exists_eq_add_of_le hlo
  rw [Nat.mul_add_mod, Nat.mod_eq_of_lt (by omega), Nat.add_sub_cancel]

def State.withDisk (st : State ω) (disk : Nat → Nat → Byte) : State ω := { st with disk }

/-- A sector outside the cached track was written. -/
theorem Coherent.store_elsewhere (hco : Coherent fw st) {place : Nat} {bytes : List Byte} {disk : Nat → Nat → Byte}
    (hlen : bytes.length = fw.sectorBytes unit')
    (hdisk : disk = Function.update st.disk unit' (store (st.disk unit') (place * fw.sectorBytes unit') bytes))
    (helse : unit st.bufDrive = unit' → ∀ t, st.Holds t → place < t ∨ t + st.bufGeom.sectors ≤ place) :
    Coherent fw (st.withDisk disk) where
  described := hco.described
  track := by
    rcases hco.track with hnone | ⟨t, ht⟩
    · exact .inl hnone
    · apply Or.inr
      by_cases hunit : unit st.bufDrive = unit'
      · rcases hco.described with ⟨-, hzero⟩ | hd
        · refine ⟨t, ht.key, ht.small, ht.aligned, ?_, fun _ hone => ?_⟩
          · simp only [State.withDisk, hzero, Geometry.zero, Nat.zero_mul, Memory.slice_zero]
          · simp only [State.withDisk, hzero, Geometry.zero, Nat.zero_ne_one] at hone
        · have hbytes : 512 ≤ st.bufGeom.sectorSize := by
            have := hd.size
            omega
          have hagree : ∀ i, t * st.bufGeom.sectorSize ≤ i → i < t * st.bufGeom.sectorSize + st.bufGeom.sectors * st.bufGeom.sectorSize →
              disk (unit st.bufDrive) i = st.disk (unit st.bufDrive) i := by
            intro i hlo hhi
            rw [hdisk, hunit, Function.update_self]
            rw [← hunit, hd.bytes] at hlen ⊢
            rcases helse hunit t ht with hbefore | hbehind
            · apply Memory.store_of_ge
              have := Nat.mul_le_mul_right st.bufGeom.sectorSize (Nat.succ_le_of_lt hbefore)
              rw [hlen]
              rw [Nat.succ_mul] at this
              omega
            · apply Memory.store_of_lt
              have := Nat.mul_le_mul_right st.bufGeom.sectorSize hbehind
              rw [Nat.add_mul] at this
              omega
          obtain ⟨hsame, hwide⟩ := slice_mapped_congr hbytes hd.sectors_pos hagree ht.wide
          exact ⟨t, ht.key, ht.small, ht.aligned, ht.data.trans hsame.symm, hwide⟩
      · have hother : disk (unit st.bufDrive) = st.disk (unit st.bufDrive) := by
          rw [hdisk, Function.update_of_ne hunit]
        refine ⟨t, ht.key, ht.small, ht.aligned, ?_, ?_⟩
        · simp only [State.withDisk, hother]
          exact ht.data
        · simp only [State.withDisk, hother]
          exact ht.wide

/-- Where the drive of the buffer finds a sector, the cache test finds its track. -/
theorem Addressed.cached {place t : Nat} (haddr : Addressed fw (unit st.bufDrive) st.bufGeom sector place)
    (hd : Described fw (unit st.bufDrive) st.bufGeom) (ht : st.Holds t) (hlow : -2 ^ 31 ≤ sector) (hhigh : sector < 2 ^ 31)
    (hin : t ≤ place ∧ place < t + st.bufGeom.sectors) : unsigned sector - unsigned sector % st.bufGeom.sectors = unsigned st.bufTrack := by
  have hsmall := ht.small
  have hfits := hd.sectors_le
  rw [bufferLen] at hfits
  have hplace : place = unsigned sector := by
    rcases haddr.eq hd with h | h
    · unfold unsigned
      omega
    · exact h
  rw [ht.key, unsigned_natCast (by omega), ← hplace]
  exact mod_track ht.aligned hin.1 hin.2

theorem writeSector_spec (hco : Coherent fw st) (hlow : -2 ^ 31 ≤ sector) (hhigh : sector < 2 ^ 31) {ok : Bool}
    (h : st.writeSector fw drive sector buf = some (ok, st')) :
    Coherent fw st' ∧ unit st'.bufDrive = unit st.bufDrive ∧ (ok = true → ¬ st'.Caches (unit drive) sector) := by
  have hmove := memmove_scratchOnly st (slice buf 0 sectorSize)
  have hco₁ := hmove.coherent hco
  unfold State.writeSector at h
  generalize st.memmove scratchAddr (slice buf 0 sectorSize) = st₁ at h hmove hco₁
  split at h
  · cases h
  next err st₂ hcall =>
    have hcalled := biosdisk_called hcall
    have hdrive : st₂.bufDrive = st.bufDrive := hcalled.attempted.bufDrive.trans hmove.bufDrive
    split at h
    next herr =>
      -- a write that fails has written nothing
      obtain ⟨rfl, rfl⟩ := Prod.mk.inj (Option.some.inj h)
      refine ⟨?_, by rw [← hdrive]; rfl, fun h => absurd h Bool.false_ne_true⟩
      exact ((hcalled.attempted.scratchOnly (hcalled.disk (.inr herr))).coherent hco₁).failed _
    next herr =>
      have herr : err = 0 := not_not.1 herr
      obtain ⟨place, haddr, hwritten⟩ := hcalled.written rfl herr
      rw [Nat.one_mul] at hwritten
      have hbefore : ScratchOnly st₁ (st₂.withDisk st₁.disk) :=
        ⟨hcalled.attempted.bufDrive, hcalled.attempted.bufTrack, rfl, fun a _ => hcalled.attempted.mem a (.inl rfl),
          hcalled.attempted.geom⟩
      have hco₂ := hbefore.coherent hco₁
      split at h
      next hsectors => cases h
      next hsectors =>
        split at h
        next htest =>
          obtain ⟨rfl, rfl⟩ := Prod.mk.inj (Option.some.inj h)
          refine ⟨⟨hco₂.described, .inl rfl⟩, by rw [← hdrive]; rfl, fun _ hcached => ?_⟩
          exact hcached.2.1 rfl
        next htest =>
          obtain ⟨rfl, rfl⟩ := Prod.mk.inj (Option.some.inj h)
          refine ⟨?_, by rw [hdrive], fun _ hcached => ?_⟩
          · refine hco₂.store_elsewhere (Memory.slice_length _ _ _) hwritten fun hunit t ht => ?_
            rcases hco₂.described with ⟨-, hzero⟩ | hd
            · exact absurd (congrArg Geometry.sectors hzero) hsectors
            · by_contra hin
              rw [not_or, Nat.not_lt, Nat.not_le] at hin
              have haddr₂ : Addressed fw (unit (st₂.withDisk st₁.disk).bufDrive) (st₂.withDisk st₁.disk).bufGeom sector place := by
                rw [hunit]
                change Addressed fw (unit drive) st₂.bufGeom sector place
                rcases hcalled.attempted.geom with hg | ⟨-, -, hg⟩
                · rw [hg]; exact haddr
                · rw [hg]
                  cases haddr with
                  | packet => exact .packet
                  | chs hcyl => exact .chs hcyl
              exact htest (haddr₂.cached hd ht hlow hhigh hin)
          · obtain ⟨-, hvalid, hlo, hhi⟩ := hcached
            rcases hco₂.track with hnone | ⟨t, ht⟩
            · exact hvalid hnone
            · have hkey : st₂.bufTrack = t := ht.key
              have hsmall := ht.small
              rcases hco₂.described with ⟨-, hzero⟩ | hd
              · exact absurd (congrArg Geometry.sectors hzero) hsectors
              · have hvtrack : st₂.bufGeom.sectorsPerVtrack = st₂.bufGeom.sectors := hd.sectorsPerVtrack
                obtain ⟨s, rfl⟩ := Int.eq_ofNat_of_zero_le (show 0 ≤ sector by omega)
                apply htest
                rw [hkey, unsigned_natCast (by omega), unsigned_natCast (by omega)]
                exact mod_track ht.aligned (by omega) (by omega)

/-- A write leaves the state coherent, and no copy of what it has overwritten in the buffer. -/
theorem rawwrite_spec (hco : Coherent fw st) (hlow : -2 ^ 31 ≤ sector) (hhigh : sector < 2 ^ 31) {ok : Bool}
    (h : rawwrite fw drive sector buf st = some (ok, st')) :
    Coherent fw st' ∧ (ok = true → ¬ st'.Caches (unit drive) (written drive sector st)) := by
  unfold rawwrite at h
  split at h
  next hzero =>
    split at h
    · cases h
    next err st₁ hcall =>
      have hcalled := biosdisk_called hcall
      have hscratch := hcalled.attempted.scratchOnly (hcalled.disk (.inl rfl))
      have hco₁ := hscratch.coherent hco
      split at h
      next herr =>
        obtain ⟨rfl, rfl⟩ := Prod.mk.inj (Option.some.inj h)
        exact ⟨hco₁.failed _, fun h => absurd h Bool.false_ne_true⟩
      next herr =>
        obtain ⟨hco', hunit, hcached⟩ := writeSector_spec hco₁ (by split <;> omega) (by split <;> omega) h
        refine ⟨hco', fun hok hcaches => ?_⟩
        have hsame : unit st.bufDrive = unit drive := by
          rw [← hscratch.bufDrive, ← hunit]
          exact hcaches.1
        have hchosen : (if isEzd (st₁.at scratchAddr) = true then (1 : Int) else 0) = written drive sector st := by
          rcases hco.described with ⟨-, hgeom⟩ | hd
          · -- without a geometry nothing can be read
            simp only [biosdisk, biosdiskStandard, hgeom, Geometry.zero, true_or, if_true, Bool.false_eq_true, if_false,
              reduceCtorEq] at hcall
          · rw [hsame] at hd
            obtain ⟨place, haddr, hslice⟩ := hcalled.read rfl (not_not.1 herr)
            have hplace := Addressed.of_natCast (s := 0) hd haddr (by decide)
            have hbytes : 512 ≤ st.bufGeom.sectorSize := by
              have := hd.size
              omega
            rw [hplace, Nat.one_mul, hd.bytes, Nat.zero_mul] at hslice
            have hezd : isEzd (st₁.at scratchAddr) = isEzd (st.disk (unit drive)) := by
              refine isEzd_congr hbytes ?_
              rw [← hslice]
              exact Memory.slice_shift st₁.mem scratchAddr 0 _
            rw [hezd, written]
            simp only [hzero, true_and]
        rw [hchosen] at hcached
        exact hcached hok hcaches
  next hother =>
    obtain ⟨hco', -, hcached⟩ := writeSector_spec hco hlow hhigh h
    refine ⟨hco', fun hok => ?_⟩
    rw [written, if_neg (fun h => hother h.1)]
    exact hcached hok

/-! ## Runs -/

/-- What a caller does. The arguments are `int`s. -/
inductive Call (ω : Type) where
  | rawread (hook : Option (Hook ω)) (drive sector byteOffset byteLen buf : Int32)
  | rawwrite (drive sector : Int32) (buf : Buffer)
  /-- The caller sets `errnum`. -/
  | setErrnum (e : GrubError)

/-- What it gets. -/
inductive Answer where
  | read (ok : Bool) (bytes : List Byte)
  | write (ok : Bool)
  | done

def request (sector byteOffset byteLen buf : Int32) : Request := ⟨sector.toInt, byteOffset.toInt, byteLen.toInt, buf.toInt⟩

def Call.run (fw : Firmware ω) (st : State ω) : Call ω → Option (Answer × State ω)
  | .rawread hook drive sector byteOffset byteLen buf =>
    (Drive.rawread fw hook drive.toInt (request sector byteOffset byteLen buf) st).map fun (ok, bytes, st) => (.read ok bytes, st)
  | .rawwrite drive sector buf => (Drive.rawwrite fw drive.toInt sector.toInt buf st).map fun (ok, st) => (.write ok, st)
  | .setErrnum e => some (.done, st.failed e)

/-- What a call from `st` to `st'` must come to. A read delivers what is on the drive, and no
valid copy of an overwritten sector is left. -/
def Call.Coherent (fw : Firmware ω) (st st' : State ω) : Call ω → Answer → Prop
  | .rawread _ drive sector byteOffset byteLen buf, .read ok bytes =>
    ok = true → bytes = wanted fw drive.toInt (request sector byteOffset byteLen buf) st'
  | .rawwrite drive sector _, .write ok => ok = true → ¬ st'.Caches (unit drive.toInt) (written drive.toInt sector.toInt st)
  | _, _ => True

/-- The BIOS knows the drive of a read, and the read is orderly. -/
def Call.Orderly (fw : Firmware ω) (st : State ω) : Call ω → Prop
  | .rawread hook drive sector byteOffset byteLen buf => 0 < byteLen.toInt → st.errnum = .none →
    ∃ st₁, st.selectDrive fw drive.toInt = (true, st₁) ∧
      (¬ st₁.bufGeom.outside sector.toInt → st₁.OrderlyRead hook (request sector byteOffset byteLen buf))
  | _ => True

/-- Before the first call no drive is selected. -/
structure State.Unused (st : State ω) : Prop where
  bufDrive : st.bufDrive = -1
  bufTrack : st.bufTrack = 0
  bufGeom : st.bufGeom = .zero

/-- One call of a run whose calls meet `P`. -/
def Step (fw : Firmware ω) (P : State ω → Call ω → Prop) (st st' : State ω) : Prop :=
  ∃ call answer, P st call ∧ call.run fw st = some (answer, st')

theorem State.Unused.coherent (h : st.Unused) : Drive.Coherent fw st where
  described := .inl ⟨h.bufDrive, h.bufGeom⟩
  track := by
    refine .inr ⟨0, h.bufTrack, by decide, Nat.dvd_zero _, ?_, fun _ hone => ?_⟩
    · simp only [h.bufGeom, Geometry.zero, Nat.zero_mul, Memory.slice_zero]
    · simp only [h.bufGeom, Geometry.zero, Nat.zero_ne_one] at hone

/-- What one orderly call comes to. -/
theorem Call.Orderly.step (hfw : fw.Sound) (hco : Drive.Coherent fw st) {call : Call ω} (horderly : call.Orderly fw st)
    {answer : Answer} (h : call.run fw st = some (answer, st')) : Drive.Coherent fw st' ∧ call.Coherent fw st st' answer := by
  cases call with
  | rawread hook drive sector byteOffset byteLen buf =>
    obtain ⟨ok, bytes, st₁, hread, hco₁, hdisk, hbytes⟩ := rawread_spec hfw hco hook (request sector byteOffset byteLen buf)
      sector.toInt_lt byteLen.toInt_lt horderly
    simp only [Call.run, hread, Option.map_some, Option.some.injEq, Prod.mk.injEq] at h
    obtain ⟨rfl, rfl⟩ := h
    refine ⟨hco₁, fun hok => ?_⟩
    rw [hbytes hok, wanted, wanted, hdisk]
  | rawwrite drive sector buf =>
    simp only [Call.run, Option.map_eq_some_iff] at h
    obtain ⟨⟨ok, st₁⟩, hwrite, heq⟩ := h
    obtain ⟨rfl, rfl⟩ := Prod.mk.inj heq
    exact rawwrite_spec hco sector.le_toInt sector.toInt_lt hwrite
  | setErrnum e =>
    obtain ⟨rfl, rfl⟩ := Prod.mk.inj (Option.some.inj h)
    exact ⟨hco.failed e, trivial⟩

/-- In a run of orderly calls, on any drives and whatever fails, the buffer is coherent in every
state, every orderly read returns, and what an orderly call comes to is right. -/
theorem trackBuffer_coherent (hfw : fw.Sound) {st₀ : State ω} (h₀ : st₀.Unused)
    (hrun : Relation.ReflTransGen (Step fw fun st call => call.Orderly fw st) st₀ st) :
    Drive.Coherent fw st ∧ ∀ call : Call ω, call.Orderly fw st →
      (∀ hook drive sector byteOffset byteLen buf, call = .rawread hook drive sector byteOffset byteLen buf →
        (call.run fw st).isSome) ∧
      ∀ answer st', call.run fw st = some (answer, st') → Drive.Coherent fw st' ∧ call.Coherent fw st st' answer := by
  have hco : Drive.Coherent fw st := by
    induction hrun with
    | refl => exact h₀.coherent
    | tail _ hstep ih =>
      obtain ⟨call, answer, horderly, h⟩ := hstep
      exact (horderly.step hfw ih h).1
  refine ⟨hco, fun call horderly => ⟨?_, fun answer st' h => horderly.step hfw hco h⟩⟩
  rintro hook drive sector byteOffset byteLen buf rfl
  obtain ⟨ok, bytes, st₁, hread, -⟩ := rawread_spec hfw hco hook (request sector byteOffset byteLen buf)
    sector.toInt_lt byteLen.toInt_lt horderly
  simp only [Call.run, hread, Option.map_some, Option.isSome_some]

/-! ## A stale track -/

/-- A floppy drive with two tracks of two sectors. -/
def twoTracks : Firmware Unit where
  sectorBytes _ := 512
  heads _ := 1
  sectors _ := 2
  transfer _ _ _ _ _ := (0, ())
  leftover _ _ := 0
  checkInt13Extensions _ _ := (0, ())
  specPacket _ _ := (none, ())
  driveParameters _ _ := (none, ())
  registers _ _ := (⟨0, 1, 2, 0⟩, ())

theorem twoTracks_sound : twoTracks.Sound where
  registers _ _ _ := ⟨rfl, rfl, rfl⟩
  noEmulation _ _ _ h := nomatch h
  emulation _ _ _ h := nomatch h

/-- Every byte of the floppy tells its sector. -/
def powerOn : State Unit where
  bufDrive := -1
  bufTrack := 0
  bufGeom := .zero
  mem _ := 0
  errnum := .none
  memLower := 640
  memUpper := 0
  disk _ i := BitVec.ofNat 8 (i / 512)
  world := ()

theorem powerOn_unused : powerOn.Unused := ⟨rfl, rfl, rfl⟩

/-- A read of the second track. -/
def trackRead : Call Unit := .rawread none 0 2 0 1024 0x8000

theorem trackRead_orderly : trackRead.Orderly twoTracks powerOn := by
  intro _ _
  refine ⟨(powerOn.selectDrive twoTracks 0).2, rfl, fun _ => ⟨fun i hi => ?_, by decide, fun h => absurd h (by decide), fun h => ?_⟩⟩
  · have hlen : i < 1024 := hi
    show unsigned (0x8000 + i) < 0x70000 ∨ _
    unfold unsigned
    omega
  · exact absurd h.1 (by decide)

theorem trackBuffer_coherent_trackRead : ∃ st, Step twoTracks (fun st call => call.Orderly twoTracks st) powerOn st ∧
    Drive.Coherent twoTracks st := by
  obtain ⟨answer, hrun⟩ := Option.isSome_iff_exists.1
    (((trackBuffer_coherent twoTracks_sound powerOn_unused .refl).2 trackRead trackRead_orderly).1 none 0 2 0 1024 0x8000 rfl)
  have hstep : Step twoTracks (fun st call => call.Orderly twoTracks st) powerOn answer.2 :=
    ⟨trackRead, answer.1, trackRead_orderly, hrun⟩
  exact ⟨answer.2, hstep, (trackBuffer_coherent twoTracks_sound powerOn_unused (.single hstep)).1⟩

/-- The read goes on behind the end of the floppy. -/
def overrun : Call Unit := .rawread none 0 3 0 1024 0x8000

def reread : Call Unit := .rawread none 0 2 0 512 0x8000

/-- The first byte that a successful read has delivered. -/
def Answer.first : Answer → Option Byte
  | .read true bytes => bytes.head?
  | _ => none

theorem overrun_reread : ((overrun.run twoTracks powerOn).bind fun r => reread.run twoTracks (r.2.failed .none)).map
    (fun r => (r.1.first, (wanted twoTracks 0 (request 2 0 512 0x8000) r.2).head?)) = some (some 3, some 2) := by
  decide +kernel

/-- The read that fails has left sector 3 in the buffer under the key of the track. -/
theorem stale_track : ¬ ∀ st, Relation.ReflTransGen (Step twoTracks fun _ _ => True) powerOn st →
    ∀ (call : Call Unit) (answer : Answer) (st' : State Unit), call.run twoTracks st = some (answer, st') →
      call.Coherent twoTracks st st' answer := by
  intro h
  obtain ⟨⟨answer, st'⟩, hruns, hbytes⟩ := Option.map_eq_some_iff.1 overrun_reread
  obtain ⟨⟨answer₁, st₁⟩, hover, hre⟩ := Option.bind_eq_some_iff.1 hruns
  have hreach : Relation.ReflTransGen (Step twoTracks fun _ _ => True) powerOn (st₁.failed .none) :=
    (Relation.ReflTransGen.single ⟨overrun, answer₁, trivial, hover⟩).tail ⟨.setErrnum .none, .done, trivial, rfl⟩
  have hcoherent := h _ hreach reread answer st' hre
  obtain ⟨hfirst, hwanted⟩ := Prod.mk.inj hbytes
  cases answer with
  | read ok bytes =>
    cases ok with
    | true =>
      have hbytes : bytes = wanted twoTracks 0 (request 2 0 512 0x8000) st' := hcoherent rfl
      rw [← hbytes] at hwanted
      have hclash : (some 2 : Option Byte) = some 3 := hwanted.symm.trans hfirst
      exact absurd hclash (by decide)
    | false => cases hfirst
  | write ok => cases hfirst
  | done => cases hfirst

end TrustedGrub.Drive
