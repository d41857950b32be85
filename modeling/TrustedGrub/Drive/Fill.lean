import TrustedGrub.Drive.Coherent

/-!
# Filling the buffer

What `readTrack`, `mapSectorZero` and `fill` leave in the buffer. The read of a whole
track leaves it under its key. The read of the end of a track keeps the key of the
track all the same: `Filled.rest` is the one case in which the key is not true.
-/

namespace TrustedGrub.Drive
open Fips180 (Byte)
open Disk (GrubError sectorSize)
open Memory (slice store)

variable {ω : Type} {fw : Firmware ω}

/-- What the calls of one pass leave alone. The geometry may lose its LBA flag. -/
structure Kept (st st' : State ω) : Prop where
  bufDrive : st'.bufDrive = st.bufDrive
  disk : st'.disk = st.disk
  memLower : st'.memLower = st.memLower
  memUpper : st'.memUpper = st.memUpper
  geom : st'.bufGeom = st.bufGeom ∨
    (st.bufGeom.lbaExtension = true ∧ st.bufGeom.cdrom = false ∧ st'.bufGeom = st.bufGeom.withoutLba)

theorem Kept.refl (st : State ω) : Kept st st := ⟨rfl, rfl, rfl, rfl, .inl rfl⟩

variable {drive : Int} {st st₁ st' : State ω}

theorem Kept.trans (h : Kept st st₁) (h' : Kept st₁ st') : Kept st st' where
  bufDrive := h'.bufDrive.trans h.bufDrive
  disk := h'.disk.trans h.disk
  memLower := h'.memLower.trans h.memLower
  memUpper := h'.memUpper.trans h.memUpper
  geom := by
    rcases h.geom, h'.geom with ⟨hg | hg, hg' | hg'⟩
    · exact .inl (hg'.trans hg)
    · rw [hg] at hg'
      exact .inr hg'
    · rw [hg']
      exact .inr hg
    · rw [hg.2.2] at hg'
      exact absurd hg'.1 Bool.false_ne_true

theorem Kept.sectors (h : Kept st st') : st'.bufGeom.sectors = st.bufGeom.sectors := by
  rcases h.geom with hg | ⟨-, -, hg⟩
  · rw [hg]
  · rw [hg]
    rfl

theorem Kept.sectorSize (h : Kept st st') : st'.bufGeom.sectorSize = st.bufGeom.sectorSize := by
  rcases h.geom with hg | ⟨-, -, hg⟩
  · rw [hg]
  · rw [hg]
    rfl

theorem Kept.described {unit : Nat} (h : Kept st st') (hd : Described fw unit st.bufGeom) : Described fw unit st'.bufGeom := by
  rcases h.geom with hg | ⟨-, -, hg⟩
  · rw [hg]; exact hd
  · rw [hg]; exact ⟨hd.bytes, hd.size, hd.sectors_pos, hd.heads_pos, hd.fits, hd.addressed⟩

theorem Kept.failed (h : Kept st st₁) (e : GrubError) : Kept st (st₁.failed e) :=
  ⟨h.bufDrive, h.disk, h.memLower, h.memUpper, h.geom⟩

theorem Kept.keyed (h : Kept st st₁) (track : Int) : Kept st (st₁.keyed track) :=
  ⟨h.bufDrive, h.disk, h.memLower, h.memUpper, h.geom⟩

theorem Kept.invalidated (h : Kept st st₁) : Kept st st₁.invalidated :=
  ⟨h.bufDrive, h.disk, h.memLower, h.memUpper, h.geom⟩

theorem State.failed_errnum {e : GrubError} (st : State ω) (h : e ≠ .none) : (st.failed e).errnum ≠ .none := h

theorem Called.kept {sector : Int} {nsec segment err : Nat} (h : Called fw .read drive sector nsec segment st err st') :
    Kept st st' :=
  ⟨h.attempted.bufDrive, h.disk (.inl rfl), h.attempted.memLower, h.attempted.memUpper, h.attempted.geom⟩

/-- The buffer holds `m` sectors from sector `a` of the drive on. -/
def State.Contains (st : State ω) (a m : Nat) : Prop :=
  slice st.mem bufferAddr (m * st.bufGeom.sectorSize) =
    slice (st.disk (unit st.bufDrive)) (a * st.bufGeom.sectorSize) (m * st.bufGeom.sectorSize)

/-- The buffer holds `m` sectors as the drive shows them. -/
def State.Shows (st : State ω) (a m : Nat) : Prop :=
  slice st.mem bufferAddr (m * st.bufGeom.sectorSize) =
    slice (mapped st.bufGeom.sectorSize (st.disk (unit st.bufDrive))) (a * st.bufGeom.sectorSize) (m * st.bufGeom.sectorSize)

/-- A read of the selected drive into the buffer. -/
theorem biosdisk_buffer (hd : Described fw (unit st.bufDrive) st.bufGeom) {s : Nat} (hs : s < 2 ^ 31) (nsec : Nat) :
    ∃ err st', biosdisk fw .read st.bufDrive s nsec bufferAddr st = some (err, st') ∧
      Called fw .read st.bufDrive s nsec bufferAddr st err st' ∧ (err = 0 → st'.Contains s nsec) := by
  obtain ⟨err, st', h, hcalled, hdone⟩ := biosdisk_read hd hs nsec bufferAddr
  refine ⟨err, st', h, hcalled, fun h0 => ?_⟩
  unfold State.Contains
  rw [hcalled.kept.sectorSize, hcalled.kept.disk, hcalled.kept.bufDrive]
  exact hdone h0

/-- The part of a track that a request for its end reads, and no more than that. -/
inductive TrackRead (fw : Firmware ω) (t soff b n slen : Nat) (st : State ω) (addr : Int) (st' : State ω) : Prop where
  | failed (key : st'.bufTrack = -1) (err : st'.errnum ≠ .none)
  | whole (fits : b + n ≤ (st.bufGeom.sectors - soff) * st.bufGeom.sectorSize) (key : st'.bufTrack = t)
      (err : st'.errnum = st.errnum) (data : st'.Contains t st.bufGeom.sectors)
      (at_ : addr = (bufferAddr + soff * st.bufGeom.sectorSize + b : Nat))
  | rest (runsOn : (st.bufGeom.sectors - soff) * st.bufGeom.sectorSize < b + n) (key : st'.bufTrack = t)
      (err : st'.errnum = st.errnum) (data : st'.Contains (t + soff) (st.bufGeom.sectors - soff))
      (at_ : addr = (bufferAddr + b : Nat))
      (fallback : st'.bufGeom ≠ st.bufGeom →
        (t + soff) / st.bufGeom.sectors / st.bufGeom.heads < st.bufGeom.cylinders)
  | only (fits : b + n ≤ slen * st.bufGeom.sectorSize) (key : st'.bufTrack = -1) (err : st'.errnum = st.errnum)
      (data : st'.Contains (t + soff) slen) (at_ : addr = (bufferAddr + b : Nat))

theorem unsigned_natCast {s : Nat} (h : s < 2 ^ 32) : unsigned s = s := by
  unfold unsigned
  omega

section Pass
variable {rq : Request} {t soff b n : Nat}

theorem readTrack_spec (hd : Described fw (unit st.bufDrive) st.bufGeom) (hat : rq.At st.bufGeom t soff b n) :
    ∃ addr st', st.readTrack fw st.bufDrive rq (st.bufGeom.slen rq) st.bufGeom.sectors = some (addr, st') ∧
      Kept st st' ∧ TrackRead fw t soff b n (st.bufGeom.slen rq) st addr st' := by
  have hsmall := hat.small
  simp only [State.readTrack, hat.emod, hat.track]
  simp only [hat.byteOffset, hat.sector, hd.shiftLeft]
  by_cases hruns : st.bufGeom.sectors - soff < st.bufGeom.slen rq
  · -- the end of the track
    simp only [if_pos hruns]
    obtain ⟨err, st₁, hcall, hcalled, hdone⟩ := biosdisk_buffer hd hsmall (st.bufGeom.sectors - soff)
    simp only [hcall]
    have hlong : (st.bufGeom.sectors - soff) * st.bufGeom.sectorSize < b + n := by
      rw [← Nat.not_le, ← hat.slen_le hd]
      exact Nat.not_le.2 hruns
    by_cases h0 : err = 0
    · rw [if_pos h0]
      refine ⟨_, _, rfl, hcalled.kept.keyed _, .rest hlong rfl hcalled.attempted.errnum (hdone h0) (by push_cast; rfl) fun hgeom => ?_⟩
      have := hcalled.fallback h0 hgeom
      rwa [unsigned_natCast (by omega)] at this
    · rw [if_neg h0]
      split
      · exact ⟨_, _, rfl, hcalled.kept.invalidated.failed _, .failed rfl (State.failed_errnum _ (by decide))⟩
      · exact ⟨_, _, rfl, hcalled.kept.invalidated.failed _, .failed rfl (State.failed_errnum _ (by decide))⟩
  · -- the whole track
    simp only [if_neg hruns]
    obtain ⟨err, st₁, hcall, hcalled, hdone⟩ := biosdisk_buffer hd (s := t) (by omega) st.bufGeom.sectors
    simp only [hcall]
    have hshort := (hat.slen_le hd).1 (Nat.not_lt.1 hruns)
    by_cases h0 : err = 0
    · rw [if_pos h0]
      exact ⟨_, _, rfl, hcalled.kept.keyed _, .whole hshort rfl hcalled.attempted.errnum (hdone h0) (by push_cast; rfl)⟩
    · rw [if_neg h0]
      split
      · exact ⟨_, _, rfl, hcalled.kept.invalidated.failed _, .failed rfl (State.failed_errnum _ (by decide))⟩
      · -- only the required sectors
        have hdrive : st₁.invalidated.bufDrive = st.bufDrive := hcalled.kept.bufDrive
        have hd₁ : Described fw (unit st₁.invalidated.bufDrive) st₁.invalidated.bufGeom := by
          rw [hdrive]; exact hcalled.kept.described hd
        obtain ⟨err', st₂, hcall', hcalled', hdone'⟩ := biosdisk_buffer hd₁ hsmall (st.bufGeom.slen rq)
        rw [hdrive] at hcall'
        simp only [hcall']
        have hkept : Kept st st₂ := hcalled.kept.invalidated.trans hcalled'.kept
        by_cases h0' : err' = 0
        · rw [if_pos h0']
          exact ⟨_, _, rfl, hkept, .only (hat.le_slen hd) hcalled'.attempted.bufTrack
            (hcalled'.attempted.errnum.trans hcalled.attempted.errnum) (hdone' h0') (by push_cast; rfl)⟩
        · rw [if_neg h0']
          exact ⟨_, _, rfl, hkept.failed _, .failed hcalled'.attempted.bufTrack (State.failed_errnum _ (by decide))⟩

/-! ## Sector 0 -/

theorem State.Contains.isEzd_eq {a m : Nat} (h : st.Contains a m) (hm : 0 < m) (hd : Described fw (unit st.bufDrive) st.bufGeom) :
    isEzd (st.at bufferAddr) = isEzd fun i => st.disk (unit st.bufDrive) (a * st.bufGeom.sectorSize + i) := by
  have hbytes : 512 ≤ st.bufGeom.sectorSize := by
    have := hd.size
    omega
  apply isEzd_congr hbytes
  obtain ⟨k, rfl⟩ := Nat.exists_eq_add_of_le' hm
  unfold State.Contains at h
  rw [Memory.slice_eq_iff] at h ⊢
  intro i hi
  simp only [State.at, Nat.zero_add]
  apply h
  rw [Nat.add_mul, Nat.one_mul]
  omega

theorem State.Contains.shows_of_pos {a m : Nat} (h : st.Contains a m) (ha : 0 < a) : st.Shows a m := by
  unfold State.Shows
  rw [slice_mapped_of_le _ _ (Nat.le_mul_of_pos_left _ ha)]
  exact h

theorem State.Contains.shows_of_plain {a m : Nat} (h : st.Contains a m) (hplain : isEzd (st.disk (unit st.bufDrive)) = false) :
    st.Shows a m := by
  unfold State.Shows
  rw [mapped_of_not_ezd hplain]
  exact h

/-- What is shown is what a reader finds behind the address. -/
theorem State.Shows.slice_eq {a m : Nat} (h : st.Shows a m) {o size : Nat} (hfits : o + size ≤ m * st.bufGeom.sectorSize) :
    slice st.mem (bufferAddr + o) size =
      slice (mapped st.bufGeom.sectorSize (st.disk (unit st.bufDrive))) (a * st.bufGeom.sectorSize + o) size := by
  unfold State.Shows at h
  rw [Memory.slice_eq_iff] at h ⊢
  intro i hi
  rw [Nat.add_assoc, Nat.add_assoc]
  exact h _ (by omega)

theorem State.memcheck_of_usable {addr len : Int} (h : st.Usable addr len) : st.memcheck addr len = st := if_pos h

theorem State.memmove_done {addr : Nat} {bytes : List Byte} (hok : st.errnum = .none) (h : st.Usable addr bytes.length) :
    st.memmove addr bytes = { st with mem := store st.mem addr bytes } := by
  simp only [State.memmove, State.memcheck_of_usable h, if_pos hok]

theorem State.memmove_failed (addr : Nat) (bytes : List Byte) (h : st.errnum ≠ .none) :
    Kept st (st.memmove addr bytes) ∧ (st.memmove addr bytes).bufTrack = st.bufTrack ∧ (st.memmove addr bytes).errnum ≠ .none := by
  unfold State.memmove State.memcheck
  split
  · rw [if_neg h]
    exact ⟨.refl _, rfl, h⟩
  · rw [if_neg (State.failed_errnum _ (by decide))]
    exact ⟨(Kept.refl _).failed _, rfl, State.failed_errnum _ (by decide)⟩

/-- Sector 1 is copied over sector 0. -/
theorem memmove_shows {m : Nat} (h : st.Contains 0 m) (hm : 2 ≤ m) (hezd : isEzd (st.disk (unit st.bufDrive)) = true)
    (hok : st.errnum = .none) (husable : st.Usable bufferAddr st.bufGeom.sectorSize) :
    let st' := st.memmove bufferAddr (slice st.mem (bufferAddr + st.bufGeom.sectorSize) st.bufGeom.sectorSize)
    st'.Shows 0 m ∧ Kept st st' ∧ st'.bufTrack = st.bufTrack ∧ st'.errnum = st.errnum := by
  obtain ⟨k, rfl⟩ := Nat.exists_eq_add_of_le' hm
  have hsplit : (k + 2) * st.bufGeom.sectorSize =
      st.bufGeom.sectorSize + (st.bufGeom.sectorSize + k * st.bufGeom.sectorSize) := by ring
  unfold State.Contains at h
  rw [hsplit, Nat.zero_mul, Memory.slice_add, Memory.slice_add, Memory.slice_add, Memory.slice_add] at h
  obtain ⟨-, hrest⟩ := List.append_inj h (by simp only [Memory.slice_length])
  obtain ⟨hfirst, hlast⟩ := List.append_inj hrest (by simp only [Memory.slice_length])
  rw [Nat.zero_add] at hfirst hlast
  intro st'
  rw [show st' = _ from State.memmove_done hok (by rw [Memory.slice_length]; exact husable)]
  refine ⟨?_, ⟨rfl, rfl, rfl, rfl, .inl rfl⟩, rfl, rfl⟩
  unfold State.Shows
  simp only
  rw [hsplit, Nat.zero_mul, slice_mapped_ezd hezd, Memory.slice_add, Memory.slice_store _ _ (Memory.slice_length _ _ _),
    Memory.slice_store_disjoint (.inr (by rw [Memory.slice_length])), hfirst, Memory.slice_add, Memory.slice_add, hfirst, hlast]

/-- A buffer that does not look like a map stays as it is. -/
theorem mapSectorZero_plain {slen : Nat} (h : ¬ ((st.bufTrack = 0 ∨ rq.sector = 0) ∧ isEzd (st.at bufferAddr) = true)) :
    st.mapSectorZero fw drive rq slen = some st := if_neg h

/-- After an error there is nothing to lose. -/
theorem mapSectorZero_failed (rq : Request) (slen : Nat) (hd : Described fw (unit st.bufDrive) st.bufGeom)
    (hkey : st.bufTrack = -1) (herr : st.errnum ≠ .none) :
    ∃ st', st.mapSectorZero fw st.bufDrive rq slen = some st' ∧ Kept st st' ∧ st'.bufTrack = -1 ∧ st'.errnum ≠ .none := by
  unfold State.mapSectorZero
  split
  next hmap =>
    split
    next hcopy =>
      obtain ⟨hkept, hsame, hfailed⟩ := State.memmove_failed bufferAddr
        (slice st.mem (bufferAddr + st.bufGeom.sectorSize) st.bufGeom.sectorSize) herr
      exact ⟨_, rfl, hkept, hsame.trans hkey, hfailed⟩
    next hcopy =>
      obtain ⟨err, st₁, hcall, hcalled, -⟩ := biosdisk_buffer (s := 1) hd (by decide) 1
      simp only [Nat.cast_one] at hcall
      simp only [hcall]
      refine ⟨_, rfl, ?_⟩
      split
      · exact ⟨hcalled.kept, hcalled.attempted.bufTrack.trans hkey, by rw [hcalled.attempted.errnum]; exact herr⟩
      · exact ⟨hcalled.kept.failed _, hcalled.attempted.bufTrack.trans hkey, State.failed_errnum _ (by decide)⟩
  next hmap => exact ⟨st, rfl, .refl _, hkey, herr⟩

/-- The first sectors of the drive are shown as they should be, or the read fails. -/
theorem mapSectorZero_zero (rq : Request) (slen : Nat) (hd : Described fw (unit st.bufDrive) st.bufGeom) {m : Nat}
    (h : st.Contains 0 m) (hm : 0 < m) (hok : st.errnum = .none) (hzero : st.bufTrack = 0 ∨ rq.sector = 0)
    (hwide : isEzd (st.disk (unit st.bufDrive)) = true → st.Usable bufferAddr st.bufGeom.sectorSize ∧
      (st.bufTrack = 0 ∨ 2 ≤ slen → 2 ≤ m) ∧ (st.bufTrack ≠ 0 → st.bufTrack = -1 ∧ (slen < 2 → m = 1))) :
    ∃ st', st.mapSectorZero fw st.bufDrive rq slen = some st' ∧ Kept st st' ∧
      ((st'.bufTrack = st.bufTrack ∧ st'.errnum = .none ∧ st'.Shows 0 m) ∨ (st'.bufTrack = -1 ∧ st'.errnum ≠ .none)) := by
  have hlooks := h.isEzd_eq hm hd
  simp only [Nat.zero_mul, Nat.zero_add] at hlooks
  by_cases hezd : isEzd (st.disk (unit st.bufDrive)) = true
  · obtain ⟨husable, htwo, hother⟩ := hwide hezd
    unfold State.mapSectorZero
    rw [if_pos ⟨hzero, hlooks.trans hezd⟩]
    split
    next hcopy =>
      obtain ⟨hshows, hkept, hkey, herr⟩ := memmove_shows h (htwo hcopy) hezd hok husable
      exact ⟨_, rfl, hkept, .inl ⟨hkey, herr.trans hok, hshows⟩⟩
    next hcopy =>
      rw [not_or, Nat.not_le] at hcopy
      obtain ⟨hkey, hone⟩ := hother hcopy.1
      obtain rfl := hone hcopy.2
      obtain ⟨err, st₁, hcall, hcalled, hdone⟩ := biosdisk_buffer (s := 1) hd (by decide) 1
      simp only [Nat.cast_one] at hcall
      simp only [hcall]
      refine ⟨_, rfl, ?_⟩
      split
      next h0 =>
        refine ⟨hcalled.kept, .inl ⟨hcalled.attempted.bufTrack, hcalled.attempted.errnum.trans hok, ?_⟩⟩
        have hdata := hdone h0
        unfold State.Contains at hdata
        unfold State.Shows
        rw [hcalled.kept.disk, hcalled.kept.bufDrive] at hdata ⊢
        have hmap := @slice_mapped_ezd st₁.bufGeom.sectorSize _ hezd 0
        rw [Nat.add_zero, Memory.slice_zero, List.append_nil] at hmap
        rw [Nat.one_mul] at hdata ⊢
        rw [hdata, Nat.zero_mul, hmap]
      next h0 =>
        exact ⟨hcalled.kept.failed _, .inr ⟨hcalled.attempted.bufTrack.trans hkey, State.failed_errnum _ (by decide)⟩⟩
  · rw [Bool.not_eq_true] at hezd
    refine ⟨st, mapSectorZero_plain fun hmap => ?_, .refl _, .inl ⟨rfl, hok, h.shows_of_plain hezd⟩⟩
    rw [hlooks, hezd] at hmap
    exact Bool.false_ne_true hmap.2

/-! ## `fill` -/

/-- Sector 0 can be shown, and no other sector is taken for it. -/
structure MapSafe (st : State ω) (t soff b n : Nat) : Prop where
  wide : t = 0 → isEzd (st.disk (unit st.bufDrive)) = true →
    1 < st.bufGeom.sectors ∧ st.Usable bufferAddr st.bufGeom.sectorSize
  plain : t = 0 → 0 < soff → (st.bufGeom.sectors - soff) * st.bufGeom.sectorSize < b + n →
    isEzd (fun i => st.disk (unit st.bufDrive) (soff * st.bufGeom.sectorSize + i)) = false

/-- What a pass takes from the sectors of one track. -/
def Geometry.pieceSize (g : Geometry) (soff b n : Nat) : Nat := min n ((g.sectors - soff) * g.sectorSize - b)

/-- At `addr` stands what the drive shows at the place of the request. -/
def State.Serves (st : State ω) (addr : Int) (t soff b n : Nat) : Prop :=
  slice st.mem (unsigned addr) (st.bufGeom.pieceSize soff b n) =
    slice (mapped st.bufGeom.sectorSize (st.disk (unit st.bufDrive))) ((t + soff) * st.bufGeom.sectorSize + b)
      (st.bufGeom.pieceSize soff b n)

/-- What `fill` comes to. -/
inductive Filled (t soff b n : Nat) (st : State ω) (addr : Int) (st' : State ω) : Prop where
  | failed (key : st'.bufTrack = -1) (err : st'.errnum ≠ .none)
  | held (err : st'.errnum = .none) (data : st'.Serves addr t soff b n) (key : st'.bufTrack = -1 ∨ st'.Holds t)
  /-- The key is `t`, and the buffer starts at `t + soff`. -/
  | rest (inside : 0 < soff) (fresh : st.bufTrack ≠ t) (key : st'.bufTrack = t)
      (runsOn : (st.bufGeom.sectors - soff) * st.bufGeom.sectorSize < b + n)
      (err : st'.errnum = .none) (data : st'.Serves addr t soff b n)
      (fallback : st'.bufGeom ≠ st.bufGeom → (t + soff) / st.bufGeom.sectors / st.bufGeom.heads < st.bufGeom.cylinders)

/-- The sectors shown from `a` on serve the request, where it lies in them. -/
theorem State.Shows.serves {a m : Nat} (h : st.Shows a m) (hd : Described fw (unit st.bufDrive) st.bufGeom)
    (hat : rq.At st.bufGeom t soff b n) {d : Nat} (hplace : a + d = t + soff)
    (hfits : d * st.bufGeom.sectorSize + b + st.bufGeom.pieceSize soff b n ≤ m * st.bufGeom.sectorSize) (hd_lt : d ≤ soff) :
    st.Serves ((bufferAddr + d * st.bufGeom.sectorSize + b : Nat) : Int) t soff b n := by
  have hbound : bufferAddr + d * st.bufGeom.sectorSize + b < 2 ^ 32 := by
    have hb := hat.b_lt
    have hsoff := hat.soff_lt
    have hmul := Nat.mul_le_mul_right st.bufGeom.sectorSize (Nat.le_trans hd_lt hsoff.le)
    have hfit := hd.fits
    have hsize := hd.size
    simp only [bufferAddr, bufferLen] at hfit ⊢
    omega
  unfold State.Serves
  rw [unsigned_natCast hbound, Nat.add_assoc, h.slice_eq hfits, ← hplace, Nat.add_mul, Nat.add_assoc]

theorem State.Holds.shows (h : st.Holds t) : st.Shows t st.bufGeom.sectors := h.data

/-- A whole track under its key. -/
theorem State.Shows.holds (h : st.Shows t st.bufGeom.sectors) (hkey : st.bufTrack = t) (hsmall : t < 2 ^ 31)
    (haligned : st.bufGeom.sectors ∣ t)
    (hwide : t = 0 → isEzd (st.disk (unit st.bufDrive)) = true → 1 < st.bufGeom.sectors) : st.Holds t where
  key := hkey
  small := hsmall
  aligned := haligned
  data := h
  wide hzero hone := by
    by_contra hezd
    have := hwide hzero (by simpa using hezd)
    omega

theorem Request.At.kept (hat : rq.At st.bufGeom t soff b n) (h : Kept st st') : rq.At st'.bufGeom t soff b n where
  sector := hat.sector
  small := hat.small
  aligned := by rw [h.sectors]; exact hat.aligned
  soff_lt := by rw [h.sectors]; exact hat.soff_lt
  byteOffset := hat.byteOffset
  byteLen := hat.byteLen
  b_lt := by rw [h.sectorSize]; exact hat.b_lt
  n_pos := hat.n_pos
  n_lt := hat.n_lt

theorem MapSafe.kept (hsafe : MapSafe st t soff b n) (h : Kept st st') : MapSafe st' t soff b n where
  wide := by
    rw [h.disk, h.bufDrive, h.sectors, h.sectorSize]
    unfold State.Usable
    rw [h.memLower, h.memUpper]
    exact hsafe.wide
  plain := by rw [h.disk, h.bufDrive, h.sectors, h.sectorSize]; exact hsafe.plain

theorem Request.At.piece_fits (hat : rq.At st.bufGeom t soff b n) :
    soff * st.bufGeom.sectorSize + b + st.bufGeom.pieceSize soff b n ≤ st.bufGeom.sectors * st.bufGeom.sectorSize := by
  have hsplit : st.bufGeom.sectors * st.bufGeom.sectorSize =
      soff * st.bufGeom.sectorSize + (st.bufGeom.sectors - soff) * st.bufGeom.sectorSize := by
    rw [← Nat.add_mul, Nat.add_sub_cancel' hat.soff_lt.le]
  have hpos : st.bufGeom.sectorSize ≤ (st.bufGeom.sectors - soff) * st.bufGeom.sectorSize :=
    Nat.le_mul_of_pos_left _ (Nat.sub_pos_of_lt hat.soff_lt)
  have hb := hat.b_lt
  unfold Geometry.pieceSize
  omega

/-- The first track of the drive, or any other, once it is in the buffer under its key. -/
theorem mapSectorZero_track (slen : Nat) (hd : Described fw (unit st.bufDrive) st.bufGeom) (hat : rq.At st.bufGeom t soff b n)
    (hsafe : MapSafe st t soff b n) (h : st.Contains t st.bufGeom.sectors) (hkey : st.bufTrack = t) (hok : st.errnum = .none) :
    ∃ st', st.mapSectorZero fw st.bufDrive rq slen = some st' ∧ Kept st st' ∧
      ((st'.errnum = .none ∧ st'.Holds t) ∨ (st'.bufTrack = -1 ∧ st'.errnum ≠ .none)) := by
  rcases Nat.eq_zero_or_pos t with rfl | hpos
  · have hkey0 : st.bufTrack = 0 := hkey
    obtain ⟨st', hmap, hkept, hdone⟩ := mapSectorZero_zero rq slen hd h hd.sectors_pos hok (.inl hkey0)
      fun hezd => ⟨(hsafe.wide rfl hezd).2, fun _ => (hsafe.wide rfl hezd).1, fun hne => absurd hkey0 hne⟩
    refine ⟨st', hmap, hkept, hdone.imp (fun ⟨hsame, herr, hshows⟩ => ⟨herr, ?_⟩) id⟩
    apply State.Shows.holds
    · rw [hkept.sectors]; exact hshows
    · rw [hsame]; exact hkey
    · decide
    · exact Nat.dvd_zero _
    · intro _ hezd
      exact ((hsafe.kept hkept).wide rfl hezd).1
  · refine ⟨st, mapSectorZero_plain fun hmap => ?_, .refl _, .inl ⟨hok, ?_⟩⟩
    · have hsector := hat.sector
      omega
    · exact (h.shows_of_pos hpos).holds hkey (by have := hat.small; omega) hat.aligned fun hzero => absurd hzero hpos.ne'

theorem fill_spec (hd : Described fw (unit st.bufDrive) st.bufGeom) (hat : rq.At st.bufGeom t soff b n) (hok : st.errnum = .none)
    (hkey : st.bufTrack = t → st.Holds t) (hsafe : st.bufTrack ≠ t → MapSafe st t soff b n) :
    ∃ addr st', st.fill fw st.bufDrive rq (st.bufGeom.slen rq) st.bufGeom.sectors = some (addr, st') ∧
      Kept st st' ∧ Filled t soff b n st addr st' := by
  have hpiece := hat.piece_fits
  simp only [State.fill, hat.emod, hat.track]
  by_cases hcached : (t : Int) = st.bufTrack
  · rw [if_pos hcached]
    have hholds := hkey hcached.symm
    refine ⟨_, _, rfl, .refl _, .held hok ?_ (.inr hholds)⟩
    have hserves := hholds.shows.serves hd hat (d := soff) rfl hpiece le_rfl
    rw [hd.shiftLeft, hat.byteOffset]
    exact_mod_cast hserves
  · rw [if_neg hcached]
    have hfresh : st.bufTrack ≠ t := fun h => hcached h.symm
    obtain ⟨addr, st₁, hread, hkept, htrack⟩ := readTrack_spec hd hat
    have hdrive := hkept.bufDrive
    have hd₁ : Described fw (unit st₁.bufDrive) st₁.bufGeom := by rw [hdrive]; exact hkept.described hd
    have hat₁ := hat.kept hkept
    have hsafe₁ := (hsafe hfresh).kept hkept
    simp only [hread]
    cases htrack with
    | failed key err =>
      obtain ⟨st', hmap, hkept', hkey', herr'⟩ := mapSectorZero_failed rq (st.bufGeom.slen rq) hd₁ key err
      rw [hdrive] at hmap
      exact ⟨addr, st', by rw [hmap], hkept.trans hkept', .failed hkey' herr'⟩
    | whole fits key err data at_ =>
      rw [← hkept.sectors] at data
      obtain ⟨st', hmap, hkept', hdone⟩ := mapSectorZero_track (st.bufGeom.slen rq) hd₁ hat₁ hsafe₁ data key (err.trans hok)
      rw [hdrive] at hmap
      refine ⟨addr, st', by rw [hmap], hkept.trans hkept', ?_⟩
      rcases hdone with ⟨herr, hholds⟩ | ⟨hkey', herr⟩
      · have hat' := hat₁.kept hkept'
        have hd' : Described fw (unit st'.bufDrive) st'.bufGeom := by rw [hkept'.bufDrive]; exact hkept'.described hd₁
        have hserves := hholds.shows.serves hd' hat' (d := soff) rfl hat'.piece_fits le_rfl
        rw [(hkept.trans hkept').sectorSize, ← at_] at hserves
        exact .held herr hserves (.inr hholds)
      · exact .failed hkey' herr
    | rest runsOn key err data at_ fallback =>
      rcases Nat.eq_zero_or_pos soff with rfl | hinside
      · -- the end of the track is all of it
        rw [Nat.sub_zero, Nat.add_zero, ← hkept.sectors] at data
        obtain ⟨st', hmap, hkept', hdone⟩ := mapSectorZero_track (st.bufGeom.slen rq) hd₁ hat₁ hsafe₁ data key (err.trans hok)
        rw [hdrive] at hmap
        refine ⟨addr, st', by rw [hmap], hkept.trans hkept', ?_⟩
        rcases hdone with ⟨herr, hholds⟩ | ⟨hkey', herr⟩
        · have hat' := hat₁.kept hkept'
          have hd' : Described fw (unit st'.bufDrive) st'.bufGeom := by rw [hkept'.bufDrive]; exact hkept'.described hd₁
          have hserves := hholds.shows.serves hd' hat' (d := 0) rfl hat'.piece_fits le_rfl
          rw [Nat.zero_mul, Nat.add_zero, ← at_] at hserves
          exact .held herr hserves (.inr hholds)
        · exact .failed hkey' herr
      · -- the buffer starts inside the track
        have hplain : ¬ ((st₁.bufTrack = 0 ∨ rq.sector = 0) ∧ isEzd (st₁.at bufferAddr) = true) := by
          rintro ⟨hzero, hezd⟩
          have hsector := hat.sector
          have ht : t = 0 := by omega
          rw [data.isEzd_eq (Nat.sub_pos_of_lt hat.soff_lt) hd₁] at hezd
          subst ht
          rw [Nat.zero_add] at hezd
          rw [hsafe₁.plain rfl hinside (by rw [hkept.sectors, hkept.sectorSize]; exact runsOn)] at hezd
          exact Bool.false_ne_true hezd
        refine ⟨addr, st₁, by rw [mapSectorZero_plain hplain], hkept,
          .rest hinside hfresh key runsOn (err.trans hok) ?_ fallback⟩
        rw [← hkept.sectors] at data
        have hshows := data.shows_of_pos (Nat.add_pos_right t hinside)
        have hserves := hshows.serves hd₁ hat₁ (d := 0) rfl (by
          have hsub := Nat.sub_mul st₁.bufGeom.sectors soff st₁.bufGeom.sectorSize
          have := hat₁.piece_fits
          omega) (Nat.zero_le _)
        rw [Nat.zero_mul, Nat.add_zero, ← at_] at hserves
        exact hserves
    | only fits key err data at_ =>
      have hslen := hat.slen_pos hd
      have hpart : st.bufGeom.pieceSize soff b n ≤ n := Nat.min_le_left _ _
      have hserve : ∀ {st'}, Kept st₁ st' → st'.Shows (t + soff) (st.bufGeom.slen rq) → st'.Serves addr t soff b n := by
        intro st' hkept' hshows
        have hat' := hat₁.kept hkept'
        have hd' : Described fw (unit st'.bufDrive) st'.bufGeom := by rw [hkept'.bufDrive]; exact hkept'.described hd₁
        have hserves := hshows.serves hd' hat' (d := 0) rfl (by
          unfold Geometry.pieceSize at hpart ⊢
          rw [(hkept.trans hkept').sectors, (hkept.trans hkept').sectorSize]
          omega) (Nat.zero_le _)
        rwa [Nat.zero_mul, Nat.add_zero, ← at_] at hserves
      by_cases hfirst : t + soff = 0
      · rw [hfirst] at data
        have hsector : rq.sector = 0 := by
          have := hat.sector
          omega
        obtain ⟨st', hmap, hkept', hdone⟩ := mapSectorZero_zero rq (st.bufGeom.slen rq) hd₁ data hslen (err.trans hok)
          (.inr hsector) fun hezd => ⟨(hsafe₁.wide (by omega) hezd).2, fun h => h.elim (by omega) id,
            fun _ => ⟨key, fun h => by omega⟩⟩
        rw [hdrive] at hmap
        refine ⟨addr, st', by rw [hmap], hkept.trans hkept', ?_⟩
        rcases hdone with ⟨hsame, herr, hshows⟩ | ⟨hkey', herr⟩
        · exact .held herr (hserve hkept' (by rw [hfirst]; exact hshows)) (.inl (hsame.trans key))
        · exact .failed hkey' herr
      · refine ⟨addr, st₁, ?_, hkept, .held (err.trans hok) (hserve (.refl _) (data.shows_of_pos (Nat.pos_of_ne_zero hfirst))) (.inl key)⟩
        rw [mapSectorZero_plain]
        have hsector := hat.sector
        omega

end Pass

end TrustedGrub.Drive
