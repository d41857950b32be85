import TrustedGrub.Drive.Transfers

/-!
# The track buffer is coherent

A state is coherent when the buffer holds, under the key of a track, what is now on the
drive there. `State.Contains` is the step on the way: the buffer holds some sectors from
a place on. A pass of `rawread` leaves the state coherent, except when it has read the
end of a track only; the passes behind that one start at a track and repair it.
-/

namespace TrustedGrub.Drive
open Fips180 (Byte)
open Disk (GrubError sectorSize)
open Memory (slice store)
open TrustedGrub.Partition (Buffer pcSliceType)

variable {ω : Type} {fw : Firmware ω}

/-! ## What is on a drive -/

/-- The drive as `rawread` shows it: sector 0 of an EZD disk is sector 1. -/
def mapped (bytes : Nat) (disk : Nat → Byte) : Nat → Byte :=
  fun i => if i < bytes ∧ isEzd disk then disk (i + bytes) else disk i

theorem mapped_of_not_ezd {bytes : Nat} {disk : Nat → Byte} (h : isEzd disk = false) : mapped bytes disk = disk := by
  funext i
  simp only [mapped, h, Bool.false_eq_true, and_false, if_false]

/-- The map is about the first sector only. -/
theorem slice_mapped_of_le {bytes a : Nat} (disk : Nat → Byte) (n : Nat) (h : bytes ≤ a) :
    slice (mapped bytes disk) a n = slice disk a n := by
  refine Memory.slice_congr fun x hlo _ => ?_
  rw [mapped, if_neg (by omega)]

/-- An EZD disk shows sector 1 twice. -/
theorem slice_mapped_ezd {bytes : Nat} {disk : Nat → Byte} (h : isEzd disk = true) (n : Nat) :
    slice (mapped bytes disk) 0 (bytes + n) = slice disk bytes bytes ++ slice disk bytes n := by
  rw [Memory.slice_add, slice_mapped_of_le _ _ (Nat.le_add_left _ _), Nat.zero_add]
  congr 1
  rw [Memory.slice_eq_iff]
  intro i hi
  rw [mapped, if_pos ⟨by omega, h⟩, Nat.zero_add, Nat.add_comm]

/-- Whether a disk is EZD stands in its first sector. -/
theorem isEzd_congr {b b' : Buffer} {bytes : Nat} (hbytes : 512 ≤ bytes) (h : slice b 0 bytes = slice b' 0 bytes) :
    isEzd b = isEzd b' := by
  have hat : ∀ i, i < bytes → b i = b' i := by
    intro i hi
    have := Memory.slice_eq_iff.1 h i hi
    rwa [Nat.zero_add] at this
  have htype : ∀ part, part < 4 → pcSliceType b part = pcSliceType b' part := by
    intro part hpart
    unfold pcSliceType
    rw [hat _ (by omega)]
  unfold isEzd
  rw [htype 0 (by decide), htype 1 (by decide), htype 2 (by decide), htype 3 (by decide)]

/-! ## Coherent states -/

/-- The buffer holds the track at `t`, and is keyed by it. -/
structure State.Holds (st : State ω) (t : Nat) : Prop where
  key : st.bufTrack = t
  small : t < 2 ^ 31
  aligned : st.bufGeom.sectors ∣ t
  data : slice st.mem bufferAddr (st.bufGeom.sectors * st.bufGeom.sectorSize) =
    slice (mapped st.bufGeom.sectorSize (st.disk (unit st.bufDrive))) (t * st.bufGeom.sectorSize)
      (st.bufGeom.sectors * st.bufGeom.sectorSize)
  /-- A track of one sector could not show what an EZD disk maps there. -/
  wide : t = 0 → st.bufGeom.sectors = 1 → isEzd (st.disk (unit st.bufDrive)) = false

/-- The key of the buffer is invalid, or the buffer holds the current contents of that
track. Before the first drive is selected there is no geometry. -/
structure Coherent (fw : Firmware ω) (st : State ω) : Prop where
  described : (st.bufDrive = -1 ∧ st.bufGeom = .zero) ∨ Described fw (unit st.bufDrive) st.bufGeom
  track : st.bufTrack = -1 ∨ ∃ t, st.Holds t

/-- What the key and the track depend on. -/
structure SameBuffer (st st' : State ω) : Prop where
  bufDrive : st'.bufDrive = st.bufDrive
  bufTrack : st'.bufTrack = st.bufTrack
  bufGeom : st'.bufGeom = st.bufGeom
  data : slice st'.mem bufferAddr (st.bufGeom.sectors * st.bufGeom.sectorSize) =
    slice st.mem bufferAddr (st.bufGeom.sectors * st.bufGeom.sectorSize)
  disk : st'.disk = st.disk

theorem SameBuffer.holds {st st' : State ω} (h : SameBuffer st st') {t : Nat} (ht : st.Holds t) : st'.Holds t where
  key := by rw [h.bufTrack]; exact ht.key
  small := ht.small
  aligned := by rw [h.bufGeom]; exact ht.aligned
  data := by rw [h.bufGeom, h.data, h.disk, h.bufDrive]; exact ht.data
  wide := by rw [h.bufGeom, h.disk, h.bufDrive]; exact ht.wide

theorem SameBuffer.coherent {st st' : State ω} (h : SameBuffer st st') (hco : Coherent fw st) : Coherent fw st' where
  described := by rw [h.bufGeom, h.bufDrive]; exact hco.described
  track := hco.track.imp (by rw [h.bufTrack]; exact id) fun ⟨t, ht⟩ => ⟨t, h.holds ht⟩

/-! ## The geometry -/

theorem Described.log2_eq {unit : Nat} {g : Geometry} (hd : Described fw unit g) : 2 ^ log2 g.sectorSize = g.sectorSize := by
  rcases hd.size with h | h <;> rw [h] <;> rfl

theorem Described.shiftLeft {unit : Nat} {g : Geometry} (hd : Described fw unit g) (n : Nat) :
    n <<< log2 g.sectorSize = n * g.sectorSize := by
  rw [Nat.shiftLeft_eq, hd.log2_eq]

theorem Described.shiftRight {unit : Nat} {g : Geometry} (hd : Described fw unit g) (n : Nat) :
    n >>> log2 g.sectorSize = n / g.sectorSize := by
  rw [Nat.shiftRight_eq_div_pow, hd.log2_eq]

/-- Every track of a drive fits: the virtual tracks are the tracks. -/
theorem Described.sectorsPerVtrack {unit : Nat} {g : Geometry} (hd : Described fw unit g) : g.sectorsPerVtrack = g.sectors := by
  rw [Geometry.sectorsPerVtrack, hd.shiftLeft, if_neg (Nat.not_lt.2 hd.fits)]

/-- A request for `n` bytes, `b` bytes into the sector `soff` of the track at `t`. -/
structure Request.At (rq : Request) (g : Geometry) (t soff b n : Nat) : Prop where
  sector : rq.sector = (t + soff : Nat)
  small : t + soff < 2 ^ 31
  aligned : g.sectors ∣ t
  soff_lt : soff < g.sectors
  byteOffset : rq.byteOffset = b
  byteLen : rq.byteLen = n
  b_lt : b < g.sectorSize
  n_pos : 0 < n
  n_lt : n < 2 ^ 31

section At
variable {rq : Request} {g : Geometry} {unit' t soff b n : Nat}

theorem Request.At.emod (hat : rq.At g t soff b n) : (rq.sector % g.sectors).toNat = soff := by
  obtain ⟨q, rfl⟩ := hat.aligned
  rw [hat.sector, ← Int.natCast_emod, Int.toNat_natCast, Nat.mul_add_mod, Nat.mod_eq_of_lt hat.soff_lt]

theorem Request.At.track (hat : rq.At g t soff b n) : rq.sector - (soff : Nat) = t := by
  rw [hat.sector]
  omega

theorem Request.At.slen_eq (hd : Described fw unit' g) (hat : rq.At g t soff b n) :
    g.slen rq = (b + n + g.sectorSize - 1) / g.sectorSize := by
  have hb := hat.b_lt
  have hn := hat.n_lt
  rw [Geometry.slen, hd.shiftRight, hat.byteOffset, hat.byteLen]
  congr 1
  unfold unsigned
  rcases hd.size with h | h <;> rw [h] at hb ⊢ <;> omega

/-- The sectors that are reached over hold the request. -/
theorem Request.At.le_slen (hd : Described fw unit' g) (hat : rq.At g t soff b n) : b + n ≤ g.slen rq * g.sectorSize := by
  rw [hat.slen_eq hd]
  rcases hd.size with h | h <;> rw [h] <;> omega

theorem Request.At.slen_le (hd : Described fw unit' g) (hat : rq.At g t soff b n) {k : Nat} :
    g.slen rq ≤ k ↔ b + n ≤ k * g.sectorSize := by
  have hn := hat.n_pos
  rw [hat.slen_eq hd]
  rcases hd.size with h | h <;> rw [h] <;> omega

theorem Request.At.slen_pos (hd : Described fw unit' g) (hat : rq.At g t soff b n) : 0 < g.slen rq := by
  have hn := hat.n_pos
  rw [hat.slen_eq hd]
  rcases hd.size with h | h <;> rw [h] <;> omega

end At

end TrustedGrub.Drive
