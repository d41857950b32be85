import TrustedGrub.Drive.Told

/-!
# The sectors of a partition

`devread` checks a request against the partition and passes it on to `rawread`. The sums of the check wrap at 32
bits, so not every request that goes beyond the partition is refused.
-/

namespace TrustedGrub.Drive
open Disk (GrubError sectorSize)

variable {ω : Type} {fw : Firmware ω}

/-! ## Pieces within bounds -/

section Pieces
variable {b lo hi pos stop : Int} {calls : List Told}

theorem Covers.le (h : Covers b pos stop calls) : pos ≤ stop := by
  induction calls generalizing pos with
  | nil => exact Int.le_of_eq h
  | cons call calls ih =>
    obtain ⟨-, -, hlength, -, hrest⟩ := h
    have hle := ih hrest
    omega

/-- The sector of the first byte of a piece. -/
theorem piece_sector (sector : Int) {offset : Int} (hlow : 0 ≤ offset) (hhigh : offset < b) : (sector * b + offset) / b = sector := by
  rw [Int.add_comm, Int.add_mul_ediv_right _ _ (by omega), Int.ediv_eq_zero_of_lt hlow hhigh, Int.zero_add]

/-- The pieces are of certain sectors when the first and the last byte are. -/
theorem Covers.inside_iff (h : Covers b pos stop calls) :
    (∀ call ∈ calls, lo ≤ call.1 ∧ call.1 < hi) ↔ (pos < stop → lo ≤ pos / b ∧ (stop - 1) / b < hi) := by
  induction calls generalizing pos with
  | nil =>
    have heq : pos = stop := h
    exact ⟨fun _ hlt => absurd heq (Int.ne_of_lt hlt), fun _ call hin => absurd hin List.not_mem_nil⟩
  | cons call calls ih =>
    obtain ⟨sector, offset, length⟩ := call
    obtain ⟨rfl, hlow, hlength, hfits, hrest⟩ := h
    have hb : 0 < b := by omega
    have hle := hrest.le
    have hfirst := piece_sector sector hlow (show offset < b by omega)
    rw [List.forall_mem_cons, ih hrest, hfirst]
    by_cases hmore : sector * b + offset + length < stop
    · have hnext : (sector * b + offset) / b ≤ (sector * b + offset + length) / b := Int.ediv_le_ediv hb (by omega)
      rw [hfirst] at hnext
      have hlast : (sector * b + offset + length) / b ≤ (stop - 1) / b := Int.ediv_le_ediv hb (by omega)
      constructor
      · rintro ⟨hin, hbehind⟩ -
        exact ⟨hin.1, (hbehind hmore).2⟩
      · intro hin
        obtain ⟨hin, hend⟩ := hin (by omega)
        exact ⟨⟨hin, by omega⟩, fun _ => ⟨by omega, hend⟩⟩
    · have hlast : (stop - 1) / b = sector := by
        rw [show stop - 1 = sector * b + (offset + length - 1) by omega]
        exact piece_sector _ (by omega) (by omega)
      rw [hlast]
      exact ⟨fun h _ => h.1, fun h => ⟨h (by omega), fun hlt => absurd hlt hmore⟩⟩

end Pieces

/-! ## Which requests a drive can serve -/

section Tracks
variable {hook : Option (Hook ω)} {drive : Int} {st st₁ st' : State ω} {rq rq' : Request} {out out' : List (BitVec 8)} {err : Nat}
    {addr : Int}

/-- The sector of the last byte. -/
def Request.lastSector (rq : Request) (b : Nat) : Int := rq.sector + (rq.byteOffset + rq.byteLen - 1) / b

/-- The first sector of the track that it is on. -/
def Request.lastTrack (rq : Request) (b v : Nat) : Int := rq.lastSector b - rq.lastSector b % v

/-- What it takes to be served from tracks of `v` sectors of `b` bytes: the sectors at which passes begin are no
negative `int`s, and neither are the places in memory, of which those from 0x1000 on are used. -/
structure Request.Reachable (rq : Request) (b v : Nat) : Prop where
  sector : 0 ≤ rq.sector
  last : rq.lastTrack b v ≤ rq.sector ∨
    rq.lastTrack b v < 2 ^ 31 ∧ (rq.lastTrack b v - rq.sector) * b - rq.byteOffset < 2 ^ 31 - 0x1000

/-- The sectors of a track stay. -/
theorem biosdisk_sectors {op : Operation} {sector : Int} {nsec segment : Nat}
    (h : biosdisk fw op drive sector nsec segment st = some (err, st₁)) :
    st₁.bufGeom.sectors = st.bufGeom.sectors := (biosdisk_called h).attempted.sectors

theorem readTrack_sectors {slen vtrack : Nat} (h : st.readTrack fw drive rq slen vtrack = some (addr, st₁)) :
    st₁.bufGeom.sectors = st.bufGeom.sectors := by
  unfold State.readTrack at h
  dsimp only at h
  split at h
  · cases h
  next err st' hread =>
  have hsectors : st'.bufGeom.sectors = st.bufGeom.sectors := by
    split at hread <;> exact biosdisk_sectors hread
  split at h
  · cases h
    exact hsectors
  split at h
  · cases h
    exact hsectors
  split at h
  · cases h
    exact hsectors
  generalize hagain : biosdisk fw .read drive rq.sector slen bufferAddr st'.invalidated = again at h
  obtain _ | ⟨err', st''⟩ := again
  · cases h
  have hsectors' := biosdisk_sectors hagain
  change st''.bufGeom.sectors = st'.bufGeom.sectors at hsectors'
  cases h
  split
  · exact hsectors'.trans hsectors
  · exact hsectors'.trans hsectors

theorem mapSectorZero_sectors {slen : Nat} (h : st.mapSectorZero fw drive rq slen = some st₁) :
    st₁.bufGeom.sectors = st.bufGeom.sectors := by
  unfold State.mapSectorZero at h
  split at h
  · split at h
    · cases h
      unfold State.memmove State.memcheck
      dsimp only
      split <;> split <;> rfl
    · generalize hread : biosdisk fw .read drive 1 1 bufferAddr st = read at h
      obtain _ | ⟨err, st'⟩ := read
      · cases h
      have hsectors := biosdisk_sectors hread
      cases h
      split
      · exact hsectors
      · exact hsectors
  · cases h
    rfl

theorem fill_sectors {slen vtrack : Nat} (h : st.fill fw drive rq slen vtrack = some (addr, st₁)) :
    st₁.bufGeom.sectors = st.bufGeom.sectors := by
  unfold State.fill at h
  dsimp only at h
  split at h
  · cases h
    rfl
  generalize hread : st.readTrack fw drive rq slen vtrack = read at h
  obtain _ | ⟨addr', st'⟩ := read
  · cases h
  have hsectors := readTrack_sectors hread
  dsimp only at h
  generalize hmap : st'.mapSectorZero fw drive rq slen = mapped at h
  obtain _ | st'' := mapped
  · cases h
  cases h
  exact (mapSectorZero_sectors hmap).trans hsectors

theorem told_geometry (hook : Option (Hook ω)) (used : List Told) (st : State ω) : (st.told hook used).bufGeom = st.bufGeom := by
  cases hook with
  | none => rfl
  | some hook =>
    simp only [State.told]
    induction used generalizing st with
    | nil => rfl
    | cons call used ih => exact ih (st.toldOne hook call)

/-- A delivery that leaves `errnum` clear has found its destination usable. -/
theorem delivered_usable (buf bufaddr : Int) (size : Nat) (h : (st.delivered buf bufaddr size).2.errnum = .none) :
    0x1000 ≤ Int.bmod buf (2 ^ 32) := by
  unfold State.delivered State.memcheck at h
  dsimp only at h
  by_cases husable : st.Usable buf size
  · unfold State.Usable at husable
    dsimp only at husable
    omega
  · rw [if_neg husable, if_neg (State.failed_errnum st (by decide))] at h
    exact absurd h (State.failed_errnum st (by decide))

theorem delivered_geometry (buf bufaddr : Int) (size : Nat) (st : State ω) : (st.delivered buf bufaddr size).2.bufGeom = st.bufGeom := by
  unfold State.delivered State.memcheck
  dsimp only
  split <;> split <;> rfl

theorem Geometry.sectorsPerVtrack_congr {g g' : Geometry} (hsectors : g'.sectors = g.sectors) (hsize : g'.sectorSize = g.sectorSize) :
    g'.sectorsPerVtrack = g.sectorsPerVtrack := by
  unfold Geometry.sectorsPerVtrack
  rw [hsectors, hsize]

/-- **A pass after which `errnum` is clear** has stored where memory may be used, and its tracks stay. -/
theorem pass_usable (h : st.pass fw hook drive rq = .next rq' out st') (herr : st'.errnum = .none) :
    0x1000 ≤ Int.bmod rq.buf (2 ^ 32) ∧ st'.bufGeom.sectors = st.bufGeom.sectors ∧ ∃ size, 0 ≤ size ∧ rq'.buf = rq.buf + size ∧
      rq'.byteLen = rq.byteLen - size := by
  unfold State.pass at h
  dsimp only at h
  split at h
  · cases h
  split at h
  · cases h
  split at h
  · cases h
  next bufaddr st₁ hfill =>
  have hsectors := fill_sectors hfill
  generalize min rq.byteLen _ = size at h
  split at h
  · cases h
  next hsize =>
  have hgeometry := told_geometry hook (sectorsUsed st.bufGeom.sectorSize rq size) st₁
  generalize st₁.told hook (sectorsUsed st.bufGeom.sectorSize rq size) = st₂ at h hgeometry
  have hdelivered := delivered_geometry rq.buf bufaddr size.toNat st₂
  injection h with hrq hbytes hstate
  rw [← hstate] at herr
  have husable := delivered_usable rq.buf bufaddr size.toNat herr
  rw [hstate] at hdelivered
  subst hrq
  refine ⟨husable, ?_, size, Int.not_lt.1 hsize, rfl, rfl⟩
  rw [hdelivered, hgeometry, hsectors]

/-- Such a pass has delivered all the bytes that it takes. -/
theorem pass_length (h : st.pass fw hook drive rq = .next rq' out st') (herr : st'.errnum = .none) :
    rq'.byteLen = rq.byteLen - out.length ∧ 0 ≤ rq'.byteLen := by
  unfold State.pass at h
  dsimp only at h
  split at h
  · cases h
  split at h
  · cases h
  split at h
  · cases h
  next bufaddr st₁ hfill =>
  generalize hwanted : min rq.byteLen _ = size at h
  have hle : size ≤ rq.byteLen := hwanted ▸ Int.min_le_left _ _
  split at h
  · cases h
  next hsize =>
  generalize st₁.told hook (sectorsUsed st.bufGeom.sectorSize rq size) = st₂ at h
  injection h with hrq hbytes hstate
  have hlength : out.length = size.toNat := by
    unfold State.delivered at hbytes hstate
    dsimp only at hbytes hstate
    split at hbytes
    next => rw [← hbytes, Memory.slice_length]
    next hfailed =>
      rw [if_neg hfailed] at hstate
      rw [← hstate] at herr
      exact absurd herr hfailed
  subst hrq
  dsimp only
  omega

/-- The first sector of a track. -/
theorem track_mono {v x y : Int} (hv : 0 < v) (h : x ≤ y) : x - x % v ≤ y - y % v := by
  have hx := Int.mul_ediv_add_emod x v
  have hy := Int.mul_ediv_add_emod y v
  have hle : v * (x / v) ≤ v * (y / v) := Int.mul_le_mul_of_nonneg_left (Int.ediv_le_ediv hv h) (Int.le_of_lt hv)
  omega

/-- A request that ends with the track it begins on. -/
theorem Request.lastTrack_le {b v : Nat} (hb : 0 < b) (hv : 0 < v) (hfits : rq.byteOffset + rq.byteLen ≤ (v - rq.sector % v) * b) :
    rq.lastTrack b v ≤ rq.sector := by
  have hquot : (rq.byteOffset + rq.byteLen - 1) / b < v - rq.sector % v := Int.ediv_lt_of_lt_mul (by omega) (by omega)
  have hmod := Int.emod_nonneg rq.sector (show (v : Int) ≠ 0 by omega)
  have htrack :=
    track_mono (v := v) (by omega) (show rq.lastSector b ≤ rq.sector - rq.sector % v + (v - 1) by unfold Request.lastSector; omega)
  have hend : (rq.sector - rq.sector % v + (v - 1)) % v = v - 1 := by
    have hdvd : (v : Int) ∣ rq.sector - rq.sector % v := Int.dvd_self_sub_emod
    rw [Int.add_emod, Int.emod_eq_zero_of_dvd hdvd, Int.zero_add, Int.emod_emod, Int.emod_eq_of_lt (by omega) (by omega)]
  unfold Request.lastTrack
  omega

/-- What a pass leaves of a request, when it has taken the rest of the track. -/
structure Request.Next (rq : Request) (b v : Nat) (rq' : Request) : Prop where
  sector : rq'.sector = rq.sector + (v - rq.sector % v)
  offset : rq'.byteOffset = 0
  len : rq'.byteLen = rq.byteLen - ((v - rq.sector % v) * b - rq.byteOffset)
  buf : rq'.buf = rq.buf + ((v - rq.sector % v) * b - rq.byteOffset)
  more : 0 < rq'.byteLen

section Next
variable {b v : Nat}

/-- It ends where the request ends. -/
theorem Request.Next.lastTrack (h : rq.Next b v rq') (hb : 0 < b) : rq'.lastTrack b v = rq.lastTrack b v := by
  have hlast : rq'.lastSector b = rq.lastSector b := by
    unfold Request.lastSector
    rw [h.sector, h.offset, h.len, show 0 + (rq.byteLen - ((v - rq.sector % v) * b - rq.byteOffset)) - 1 =
      rq.byteOffset + rq.byteLen - 1 + -(v - rq.sector % v) * (b : Int) by rw [Int.neg_mul]; omega, Int.add_mul_ediv_right _ _ (by omega)]
    omega
  unfold Request.lastTrack
  rw [hlast]

/-- It begins with a track. -/
theorem Request.Next.le_lastTrack (h : rq.Next b v rq') (hv : 0 < v) : rq'.sector ≤ rq'.lastTrack b v := by
  have hstart : rq'.sector % v = 0 := by
    have hdvd : (v : Int) ∣ rq.sector - rq.sector % v := Int.dvd_self_sub_emod
    apply Int.emod_eq_zero_of_dvd
    rw [h.sector, show rq.sector + (v - rq.sector % v) = rq.sector - rq.sector % v + v by omega]
    exact Int.dvd_add hdvd (Int.dvd_refl _)
  have hoffset := h.offset
  have hmore := h.more
  have hquot : 0 ≤ (rq'.byteOffset + rq'.byteLen - 1) / b := Int.ediv_nonneg (by omega) (by omega)
  have htrack := track_mono (v := v) (by omega) (show rq'.sector ≤ rq'.lastSector b by unfold Request.lastSector; omega)
  rw [hstart, Int.sub_zero] at htrack
  exact htrack

/-- The way to the last track is the way to the next one, and the way from there. -/
theorem Request.Next.way (h : rq.Next b v rq') (hb : 0 < b) :
    rq.buf + ((rq.lastTrack b v - rq.sector) * b - rq.byteOffset) = rq'.buf + ((rq'.lastTrack b v - rq'.sector) * b - rq'.byteOffset) := by
  have hway : (rq.lastTrack b v - rq.sector) * (b : Int) = (rq'.lastTrack b v - rq'.sector) * b + (v - rq.sector % v) * b := by
    rw [← Int.add_mul, h.lastTrack hb, h.sector]
    congr 1
    omega
  rw [hway, h.buf, h.offset]
  omega

end Next

/-- The sectors and the places in memory with which the passes begin, first and last. -/
structure Request.Served (rq : Request) (b v : Nat) : Prop where
  sector : 0 ≤ rq.sector
  buf : 0x1000 ≤ Int.bmod rq.buf (2 ^ 32)
  last : rq.lastTrack b v ≤ rq.sector ∨
    rq.lastTrack b v < 2 ^ 31 ∧ 0x1000 ≤ Int.bmod (rq.buf + ((rq.lastTrack b v - rq.sector) * b - rq.byteOffset)) (2 ^ 32)

/-- **A pass before it**: what holds of the rest of a request holds of the request. -/
theorem Request.Served.earlier {b v : Nat} (hb : 0 < b) (hv : 0 < v) (h : rq'.Served b v) (hnext : rq.Next b v rq') (hlow : 0 ≤ rq.sector)
    (hbuf : 0x1000 ≤ Int.bmod rq.buf (2 ^ 32)) (hsmall : rq'.sector < 2 ^ 31) : rq.Served b v := by
  refine ⟨hlow, hbuf, .inr ?_⟩
  rw [hnext.way hb, ← hnext.lastTrack hb]
  obtain hfirst | hlast := h.last
  · have heq : rq'.lastTrack b v = rq'.sector := Int.le_antisymm hfirst (hnext.le_lastTrack hv)
    rw [heq, hnext.offset, Int.sub_self, Int.zero_mul, Int.sub_zero, Int.add_zero]
    exact ⟨hsmall, h.buf⟩
  · exact hlast

/-- The tracks of a read that succeeds, once the drive is selected. -/
theorem rawreadLoop_sectors {fuel : Nat} (hdrive : st.bufDrive = drive)
    (h : rawreadLoop fw hook drive fuel rq out st = some (true, out', st')) :
    st'.bufGeom.sectors = st.bufGeom.sectors := by
  induction fuel generalizing rq out st with
  | zero => cases h
  | succ fuel ih =>
    rw [rawreadLoop] at h
    split at h
    · rw [State.selectDrive, if_pos hdrive] at h
      dsimp only at h
      rw [if_pos rfl] at h
      split at h
      · cases h
      · cases h
      next rq₁ bytes st₁ hpass =>
        have hkeeps := pass_keeps fw hook drive rq st
        rw [hpass] at hkeeps
        have hrest := ih (hkeeps.bufDrive.trans hdrive) h
        exact hrest.trans (pass_usable hpass (rawreadLoop_ok hook h)).2.1
    · have hdone := (Prod.mk.inj (Prod.mk.inj (Option.some.inj h)).2).2
      rw [hdone]

theorem Geometry.Sized.above {g : Geometry} (h : g.Sized) {offset : Int} (hoffset : offset < 512) : offset < g.sectorSize := by
  obtain h | h := h <;> omega

/-- The buffer holds a track. -/
theorem Geometry.Sized.vtrack_fits {g : Geometry} (h : g.Sized) : g.sectorsPerVtrack * g.sectorSize ≤ bufferLen := by
  unfold Geometry.sectorsPerVtrack
  rw [h.shiftLeft, h.shiftRight]
  split
  · exact Nat.div_mul_le_self ..
  next hfits => exact Nat.le_of_not_lt hfits

/-- **The loop** serves what it succeeds with. -/
theorem rawreadLoop_served {hook : Hook ω} {log : ω → List Told} (hlogs : Logs fw hook log) {fuel : Nat}
    (hkept : st.bufDrive = drive → st.bufGeom.Sized)
    (h : rawreadLoop fw (some hook) drive fuel rq out st = some (true, out', st')) (hsector : rq.sector < 2 ^ 31) (hlow : 0 ≤ rq.byteOffset)
    (hhigh : rq.byteOffset < 512) (hlen : 0 < rq.byteLen) :
    st'.bufGeom.Sized ∧ st'.bufGeom.sectorsPerVtrack ≠ 0 ∧ rq.Served st'.bufGeom.sectorSize st'.bufGeom.sectorsPerVtrack := by
  induction fuel generalizing rq out st with
  | zero => cases h
  | succ fuel ih =>
    rw [rawreadLoop] at h
    split at h
    next hgo =>
      generalize hselect : st.selectDrive fw drive = selected at h
      obtain ⟨_ | _, st₁⟩ := selected
      · cases h
      obtain ⟨-, hdrive₁, hsized₁⟩ := selectDrive_silent hlogs.unlogged hkept hselect
      dsimp only at h
      rw [if_pos rfl] at h
      split at h
      · cases h
      · cases h
      next rq₂ bytes st₂ hpass =>
      have hkeeps := pass_keeps fw (some hook) drive rq st₁
      rw [hpass] at hkeeps
      have hdrive₂ : st₂.bufDrive = drive := hkeeps.bufDrive.trans hdrive₁
      obtain ⟨hbuf, hsectors₂, size, -, hplace, htaken⟩ := pass_usable hpass (rawreadLoop_ok (some hook) h)
      have hsize : st'.bufGeom.sectorSize = st₁.bufGeom.sectorSize := (rawreadLoop_keeps hdrive₂ h).sectorSize.trans hkeeps.sectorSize
      have hsectors : st'.bufGeom.sectors = st₁.bufGeom.sectors := (rawreadLoop_sectors hdrive₂ h).trans hsectors₂
      have hvtracks := Geometry.sectorsPerVtrack_congr hsectors hsize
      have hsized : st'.bufGeom.Sized := hsized₁.of_eq hsize
      obtain ⟨hvtrack, hnonneg, -, hsector₂, hoffset₂, hlen₂⟩ := pass_told hlogs hsized₁ (hsized₁.above hhigh) hlen hpass
      obtain rfl : size = st₁.bufGeom.piece rq := by omega
      rw [hvtracks]
      refine ⟨hsized, hvtrack, ?_⟩
      have hmod := Int.emod_nonneg rq.sector (show (st₁.bufGeom.sectorsPerVtrack : Int) ≠ 0 by omega)
      have hin := Int.emod_lt_of_pos rq.sector (show (0 : Int) < st₁.bufGeom.sectorsPerVtrack by omega)
      have hrest : ((st₁.bufGeom.sectorsPerVtrack - (rq.sector % st₁.bufGeom.sectorsPerVtrack).toNat : Nat) : Int) =
          st₁.bufGeom.sectorsPerVtrack - rq.sector % st₁.bufGeom.sectorsPerVtrack := by omega
      have hpiece : st₁.bufGeom.piece rq =
          min rq.byteLen ((st₁.bufGeom.sectorsPerVtrack - rq.sector % st₁.bufGeom.sectorsPerVtrack) * st'.bufGeom.sectorSize -
            rq.byteOffset) := by
        unfold Geometry.piece
        rw [Int.natCast_mul, hrest, hsize]
      rw [hrest] at hsector₂
      by_cases hmore : 0 < rq₂.byteLen
      · have hbound : rq₂.sector < 2 ^ 31 := by
          rw [hsector₂]
          exact Int.bmod_lt (by decide)
        have hpos := hsized.pos
        obtain ⟨-, -, hserved⟩ := ih (fun _ => hsized₁.of_eq hkeeps.sectorSize) h hbound (Int.le_of_eq hoffset₂.symm) (by omega) hmore
        have hnonneg₂ := hserved.sector
        rw [hsector₂] at hnonneg₂
        have hvlen := hsized₁.sectorsPerVtrack_le
        have hnext := next_sector hnonneg ⟨by omega, by omega⟩ hsector hnonneg₂
        have hall : st₁.bufGeom.piece rq =
            (st₁.bufGeom.sectorsPerVtrack - rq.sector % st₁.bufGeom.sectorsPerVtrack) * st'.bufGeom.sectorSize - rq.byteOffset := by omega
        rw [hvtracks] at hserved
        rw [hall] at hlen₂ hplace
        exact hserved.earlier hpos (Nat.pos_of_ne_zero hvtrack) ⟨hsector₂.trans hnext, hoffset₂, hlen₂, hplace, hmore⟩ hnonneg hbuf hbound
      · refine ⟨hnonneg, hbuf, .inl (Request.lastTrack_le hsized.pos (Nat.pos_of_ne_zero hvtrack) ?_)⟩
        omega
    next hstop =>
      have hclear := (Prod.mk.inj (Option.some.inj h)).1
      exact absurd ⟨hlen, of_decide_eq_true hclear⟩ hstop

theorem Request.Served.reachable {b v : Nat} (hb : 0 < b) (hv : 0 < v) (h : rq.Served b v) (_ : 0 ≤ rq.byteOffset) (_ : rq.byteOffset < b)
    (hlen : rq.byteLen < 2 ^ 31) : rq.Reachable b v := by
  refine ⟨h.sector, ?_⟩
  by_cases hfirst : rq.lastTrack b v ≤ rq.sector
  · exact .inl hfirst
  obtain ⟨hlast, hend⟩ := h.last.resolve_left hfirst
  refine .inr ⟨hlast, ?_⟩
  have hstart : 0x1000 ≤ Int.bmod rq.buf (2 ^ 32) := h.buf
  have hbefore : rq.lastTrack b v - rq.sector ≤ (rq.byteOffset + rq.byteLen - 1) / b := by
    have hmod := Int.emod_nonneg (rq.lastSector b) (show (v : Int) ≠ 0 by omega)
    unfold Request.lastTrack Request.lastSector at *
    omega
  have hway := (Int.mul_le_mul_of_nonneg_right hbefore (show (0 : Int) ≤ b by omega)).trans (Int.ediv_mul_le _ (by omega))
  have hone : 1 * (b : Int) ≤ (rq.lastTrack b v - rq.sector) * b := Int.mul_le_mul_of_nonneg_right (by omega) (by omega)
  rw [← Int.bmod_add_bmod] at hend
  have hsmall : Int.bmod rq.buf (2 ^ 32) < 2 ^ 31 := Int.bmod_lt (by decide)
  generalize (rq.lastTrack b v - rq.sector) * (b : Int) = way at *
  generalize Int.bmod rq.buf (2 ^ 32) = start at *
  rw [Int.bmod_def] at hend
  split at hend
  · omega
  · omega

/-- A read that fails says why. -/
theorem rawreadLoop_failed {fuel : Nat} (h : rawreadLoop fw hook drive fuel rq out st = some (false, out', st')) : st'.errnum ≠ .none := by
  induction fuel generalizing rq out st with
  | zero => cases h
  | succ fuel ih =>
    rw [rawreadLoop] at h
    split at h
    · generalize hselect : st.selectDrive fw drive = selected at h
      obtain ⟨_ | _, st₁⟩ := selected
      · cases h
        have hfailed := hselect
        unfold State.selectDrive at hfailed
        split at hfailed
        · cases hfailed
        · dsimp only at hfailed
          split at hfailed
          · cases hfailed
          · cases hfailed
            exact State.failed_errnum _ (by decide)
      dsimp only at h
      rw [if_pos rfl] at h
      split at h
      · cases h
      next st₂ hpass =>
        cases h
        unfold State.pass at hpass
        dsimp only at hpass
        split at hpass
        · cases hpass
          exact State.failed_errnum _ (by decide)
        split at hpass
        · cases hpass
        split at hpass
        · cases hpass
        split at hpass
        · cases hpass
        · cases hpass
      · exact ih h
    · have hresult := Option.some.inj h
      have hdone := (Prod.mk.inj (Prod.mk.inj hresult).2).2
      rw [← hdone]
      exact of_decide_eq_false (Prod.mk.inj hresult).1

/-- A loop that succeeds has delivered what it was asked for. -/
theorem rawreadLoop_length {fuel : Nat} (hlen : 0 ≤ rq.byteLen) (h : rawreadLoop fw hook drive fuel rq out st = some (true, out', st')) :
    (out'.length : Int) = out.length + rq.byteLen := by
  induction fuel generalizing rq out st with
  | zero => cases h
  | succ fuel ih =>
    rw [rawreadLoop] at h
    split at h
    · dsimp only at h
      split at h
      · split at h
        · cases h
        · cases h
        next rq₁ bytes st₁ hpass =>
          have herr : st₁.errnum = .none := by
            cases fuel with
            | zero => cases h
            | succ fuel =>
              by_contra hne
              rw [rawreadLoop, if_neg fun hon => hne hon.2] at h
              obtain ⟨hfalse, -⟩ := Prod.mk.inj (Option.some.inj h)
              exact hne (of_decide_eq_true hfalse)
          obtain ⟨htaken, hleft⟩ := pass_length hpass herr
          have hrest := ih hleft h
          rw [List.length_append] at hrest
          omega
      · cases h
    next hdone =>
      obtain ⟨herr, hrest⟩ := Prod.mk.inj (Option.some.inj h)
      obtain ⟨rfl, -⟩ := Prod.mk.inj hrest
      have hclear : st.errnum = .none := of_decide_eq_true herr
      have hnone : ¬ 0 < rq.byteLen := fun hpos => hdone ⟨hpos, hclear⟩
      omega

/-- A read that succeeds delivers all the bytes. -/
theorem rawread_length (hlen : 0 ≤ rq.byteLen) (h : rawread fw hook drive rq st = some (true, out, st')) :
    (out.length : Int) = rq.byteLen := by
  unfold rawread at h
  split at h
  · cases h
    exact Int.le_antisymm hlen ‹_›
  · have hlength := rawreadLoop_length hlen h
    rw [List.length_nil] at hlength
    omega

end Tracks

/-! ## `devread` -/

section Devread
variable {partStart partLength : Nat} {rq : Request} {hook : Hook ω} {log : ω → List Told} {drive : Int} {st st' : State ω}
  {out : List (BitVec 8)} {ok : Bool}

/-- `devread` finds the request outside the partition. -/
def Refused (partLength : Nat) (rq : Request) : Prop :=
  rq.sector < 0 ∨ partLength ≤ unsigned (rq.sector + Int.bmod (rq.byteOffset + rq.byteLen - 1) (2 ^ 32) / sectorSize)

instance (partLength : Nat) (rq : Request) : Decidable (Refused partLength rq) := inferInstanceAs (Decidable (_ ∨ _))

/-- What is meant by a request: the sector of the drive, and the offset in it. -/
def meant (partStart : Nat) (rq : Request) : Request :=
  { rq with sector := partStart + (rq.sector + rq.byteOffset / sectorSize), byteOffset := rq.byteOffset % sectorSize }

/-- What is passed on: the sector is an `int`. -/
def passedOn (partStart : Nat) (rq : Request) : Request :=
  { meant partStart rq with sector := Int.bmod (meant partStart rq).sector (2 ^ 32) }

/-- The first and the last byte are in the partition. -/
def Request.Within (rq : Request) (partStart partLength b : Nat) : Prop :=
  partStart ≤ rq.sector ∧ rq.lastSector b < partStart + partLength

theorem devread_eq (hook : Option (Hook ω)) (drive : Int) (rq : Request) (st : State ω) :
    devread fw hook drive partStart partLength rq st =
      if Refused partLength rq then some (false, [], st.failed .outsidePart) else rawread fw hook drive (passedOn partStart rq) st := rfl

theorem passedOn_offset (partStart : Nat) (rq : Request) :
    0 ≤ (passedOn partStart rq).byteOffset ∧ (passedOn partStart rq).byteOffset < 512 :=
  ⟨Int.emod_nonneg _ (by decide), Int.emod_lt_of_pos _ (by decide)⟩

/-- A request that is passed on into the partition is the one that is meant. -/
theorem passedOn_sector (hstart : partStart < 2 ^ 32) (hsector : 0 ≤ rq.sector ∧ rq.sector < 2 ^ 31)
    (hoffset : -2 ^ 31 ≤ rq.byteOffset ∧ rq.byteOffset < 2 ^ 31) (h : partStart ≤ (passedOn partStart rq).sector) :
    passedOn partStart rq = meant partStart rq := by
  have hsame : (passedOn partStart rq).sector = (meant partStart rq).sector := by
    change (partStart : Int) ≤ Int.bmod (partStart + (rq.sector + rq.byteOffset / 512)) (2 ^ 32) at h
    show Int.bmod (partStart + (rq.sector + rq.byteOffset / 512)) (2 ^ 32) = partStart + (rq.sector + rq.byteOffset / 512)
    rw [Int.bmod_def] at h ⊢
    split at h
    next hsmall =>
      rw [if_pos hsmall]
      omega
    next => omega
  exact congrArg (fun sector : Int => ({ meant partStart rq with sector := sector } : Request)) hsame

/-- The read keeps the track buffer coherent, on the drive that it selects. -/
def OrderlyOn (fw : Firmware ω) (drive : Int) (st : State ω) (hook : Option (Hook ω)) (rq : Request) : Prop :=
  0 < rq.byteLen → st.errnum = .none →
    ∃ st₁, st.selectDrive fw drive = (true, st₁) ∧ (¬ st₁.bufGeom.outside rq.sector → st₁.OrderlyRead hook rq)

/-- **One partition and request**: in every state of the track buffer, a read that succeeds uses sectors of the partition only,
and so it does not when it is to use another one; and one that does not succeed sets `errnum`. With a coherent buffer it delivers
the bytes that are there. -/
def Confined (partStart partLength : Nat) (sector byteOffset byteLen : Int32) : Prop :=
  ∀ (ω : Type) (fw : Firmware ω) (hook : Hook ω) (log : ω → List Told) (drive : Int) (buf : Int32) (st st' : State ω) (ok : Bool)
    (out : List (BitVec 8)), Logs fw hook log → st.Selected → drive ≠ -1 →
    devread fw (some hook) drive partStart partLength (request sector byteOffset byteLen buf) st = some (ok, out, st') →
    (ok = true →
      (0 < byteLen.toInt → (meant partStart (request sector byteOffset byteLen buf)).Within partStart partLength st'.bufGeom.sectorSize) ∧
      (fw.Sound → Coherent fw st → OrderlyOn fw drive st (some hook) (passedOn partStart (request sector byteOffset byteLen buf)) →
        Coherent fw st' ∧ out = wanted fw drive (meant partStart (request sector byteOffset byteLen buf)) st) ∧
      ∃ calls, log st'.world = log st.world ++ calls ∧ ∀ call ∈ calls, (partStart : Int) ≤ call.1 ∧ call.1 < partStart + partLength) ∧
    (ok = false → st'.errnum ≠ .none)

theorem rawread_failed {hook : Option (Hook ω)} (h : rawread fw hook drive rq st = some (false, out, st')) : st'.errnum ≠ .none := by
  unfold rawread at h
  split at h
  · cases h
  · exact rawreadLoop_failed h

/-- What a read delivers from a coherent buffer. -/
theorem devread_delivers {hook : Option (Hook ω)} (hfw : fw.Sound) (hco : Coherent fw st) (hlen : rq.byteLen < 2 ^ 31)
    (horderly : OrderlyOn fw drive st hook (passedOn partStart rq))
    (h : rawread fw hook drive (passedOn partStart rq) st = some (true, out, st')) :
    Coherent fw st' ∧ out = wanted fw drive (passedOn partStart rq) st := by
  obtain ⟨ok, bytes, st₁, hread, hco₁, -, hbytes⟩ :=
    rawread_spec hfw hco hook (passedOn partStart rq) (Int.bmod_lt (by decide)) hlen horderly
  rw [hread] at h
  cases h
  exact ⟨hco₁, hbytes rfl⟩

/-- What a read that succeeds has used. -/
theorem rawread_served (hlogs : Logs fw hook log) (hkept : st.bufDrive = drive → st.bufGeom.Sized)
    (h : rawread fw (some hook) drive rq st = some (true, out, st')) (hsector : rq.sector < 2 ^ 31) (hlow : 0 ≤ rq.byteOffset)
    (hhigh : rq.byteOffset < 512) (hpos : 0 < rq.byteLen) (hlen : rq.byteLen < 2 ^ 31) :
    ∃ v, (st'.bufGeom.sectorSize = 512 ∨ st'.bufGeom.sectorSize = 2048) ∧ 0 < v ∧ v * st'.bufGeom.sectorSize ≤ bufferLen ∧
      rq.Reachable st'.bufGeom.sectorSize v ∧ ∃ calls, log st'.world = log st.world ++ calls ∧
        Covers st'.bufGeom.sectorSize (rq.sector * st'.bufGeom.sectorSize + rq.byteOffset)
          (rq.sector * st'.bufGeom.sectorSize + rq.byteOffset + rq.byteLen) calls := by
  unfold rawread at h
  rw [if_neg (Int.not_le.2 hpos)] at h
  obtain ⟨hsized, hvtrack, hserved⟩ := rawreadLoop_served hlogs hkept h hsector hlow hhigh hpos
  have hoffset : rq.byteOffset < st'.bufGeom.sectorSize := hsized.above hhigh
  have hv := Nat.pos_of_ne_zero hvtrack
  exact ⟨_, hsized, hv, hsized.vtrack_fits, hserved.reachable hsized.pos hv hlow hoffset hlen,
    (rawreadLoop_told hlogs hkept h hsector hlow hoffset hpos).2⟩

/-- The last sector is the one of the last byte. -/
theorem lastSector_eq {b : Nat} (hb : 0 < b) (rq : Request) : (rq.sector * b + rq.byteOffset + rq.byteLen - 1) / b = rq.lastSector b := by
  unfold Request.lastSector
  rw [show rq.sector * (b : Int) + rq.byteOffset + rq.byteLen - 1 = rq.byteOffset + rq.byteLen - 1 + rq.sector * b by omega,
    Int.add_mul_ediv_right _ _ (by omega), Int.add_comm]

/-- What is told of a request is in the partition when the request is. -/
theorem told_within_iff {b : Nat} {calls : List Told} (hlow : 0 ≤ rq.byteOffset) (hhigh : rq.byteOffset < b) (hpos : 0 < rq.byteLen)
    (h : Covers b (rq.sector * b + rq.byteOffset) (rq.sector * b + rq.byteOffset + rq.byteLen) calls) :
    (∀ call ∈ calls, (partStart : Int) ≤ call.1 ∧ call.1 < partStart + partLength) ↔ rq.Within partStart partLength b := by
  rw [h.inside_iff, piece_sector _ hlow hhigh, lastSector_eq (by omega)]
  exact ⟨fun hin => hin (by omega), fun hin _ => hin⟩

/-- The request is refused, or asks for nothing, or what is passed on is within the partition on all drives that
can serve it. -/
def Safe (partStart partLength : Nat) (rq : Request) : Prop :=
  Refused partLength rq ∨ rq.byteLen ≤ 0 ∨
    ∀ b v, (b = 512 ∨ b = 2048) → 0 < v → v * b ≤ bufferLen → (passedOn partStart rq).Reachable b v →
      (passedOn partStart rq).Within partStart partLength b

/-- **The condition is enough.** -/
theorem confined_of_safe {sector byteOffset byteLen : Int32} (hstart : partStart < 2 ^ 32)
    (h : Safe partStart partLength (request sector byteOffset byteLen 0)) : Confined partStart partLength sector byteOffset byteLen := by
  intro ω fw hook log drive buf st st' ok out hlogs hselected hdrive hread
  rw [devread_eq] at hread
  split at hread
  next hrefused =>
    cases hread
    exact ⟨fun hok => absurd hok Bool.false_ne_true, fun _ => State.failed_errnum _ (by decide)⟩
  next hpassed =>
  refine ⟨?_, fun hok => rawread_failed (hok ▸ hread)⟩
  rintro rfl
  have hkept : st.bufDrive = drive → st.bufGeom.Sized := fun heq => hselected.resolve_left fun hnone => hdrive (heq.symm.trans hnone)
  by_cases hnone : byteLen.toInt ≤ 0
  · unfold rawread at hread
    rw [if_pos (show (passedOn partStart (request sector byteOffset byteLen buf)).byteLen ≤ 0 from hnone)] at hread
    cases hread
    refine ⟨fun hpos => absurd hpos (by omega), fun _ hco _ => ⟨hco, ?_⟩, [], (List.append_nil _).symm,
      fun call hin => absurd hin List.not_mem_nil⟩
    unfold wanted
    rw [show (meant partStart (request sector byteOffset byteLen buf)).byteLen.toNat = 0 from Int.toNat_of_nonpos hnone, Memory.slice_zero]
  · have hbound : (passedOn partStart (request sector byteOffset byteLen buf)).sector < 2 ^ 31 := Int.bmod_lt (by decide)
    obtain ⟨hlow, hhigh⟩ := passedOn_offset partStart (request sector byteOffset byteLen buf)
    obtain ⟨v, hsized, hv, hfits, hreachable, calls, hlog, hcovers⟩ := rawread_served hlogs hkept hread hbound hlow hhigh
      (Int.not_le.1 hnone) byteLen.toInt_lt
    have hwithin : (passedOn partStart (request sector byteOffset byteLen buf)).Within partStart partLength st'.bufGeom.sectorSize :=
      (h.resolve_left hpassed).resolve_left hnone _ v hsized hv hfits ⟨hreachable.sector, hreachable.last⟩
    have hnonneg : 0 ≤ sector.toInt := by
      unfold Refused at hpassed
      rw [not_or] at hpassed
      exact Int.not_lt.1 hpassed.1
    have hmeant := passedOn_sector hstart ⟨hnonneg, sector.toInt_lt⟩
      ⟨byteOffset.le_toInt, byteOffset.toInt_lt⟩ hwithin.1
    refine ⟨fun _ => ?_, fun hfw hco horderly => ?_, calls, hlog, (told_within_iff hlow (by omega) (Int.not_le.1 hnone) hcovers).2 hwithin⟩
    · rw [← hmeant]
      exact hwithin
    · rw [← hmeant]
      exact devread_delivers hfw hco byteLen.toInt_lt horderly hread

end Devread

/-! ## A drive that serves all it can -/

section Healthy
variable {b v : Nat} {rq : Request} {st : State (Unit × List Told)} {out : List (BitVec 8)}

def Geometry.wide (b v : Nat) : Geometry := ⟨1, 1, v, 2 ^ 32 - 1, b, true, false⟩

/-- A BIOS for which all transfers succeed. -/
def healthy (b : Nat) : Firmware Unit where
  sectorBytes _ := b
  heads _ := 1
  sectors _ := 1
  transfer _ _ _ _ _ := (0, ())
  leftover _ _ := 0
  checkInt13Extensions _ _ := (1, ())
  specPacket _ _ := (none, ())
  driveParameters _ _ := (none, ())
  registers _ _ := (⟨0, 0, 1, 0⟩, ())

/-- A hard disk of zeros is selected, and all memory may be used. -/
structure Healthy (b v : Nat) (st : State (Unit × List Told)) : Prop where
  drive : st.bufDrive = 0x80
  geometry : st.bufGeom = .wide b v
  mem : st.mem = fun _ => 0
  errnum : st.errnum = .none
  memLower : st.memLower = 2 ^ 22 - 1
  memUpper : st.memUpper = 2 ^ 22 - 1
  disk : st.disk = fun _ _ => 0

theorem store_zeros (a place n : Nat) : Memory.store (fun _ => (0 : BitVec 8)) a (Memory.slice (fun _ => 0) place n) = fun _ => 0 := by
  funext x
  by_cases hbelow : x < a
  · rw [Memory.store_of_lt hbelow]
  by_cases habove : a + n ≤ x
  · rw [Memory.store_of_ge (by rw [Memory.slice_length]; exact habove)]
  obtain ⟨i, rfl⟩ := Nat.exists_eq_add_of_le (Nat.le_of_not_lt hbelow)
  have hin : i < (Memory.slice (fun _ => (0 : BitVec 8)) place n).length := by
    rw [Memory.slice_length]
    omega
  rw [Memory.store_at hin]
  simp [Memory.slice]

theorem Healthy.biosdisk (h : Healthy b v st) (sector : Int) (nsec segment : Nat) :
    ∃ st', biosdisk (healthy b).logged .read 0x80 sector nsec segment st = some (0, st') ∧ Healthy b v st' := by
  simp only [Drive.biosdisk, h.geometry, Geometry.wide, if_true, int13, Firmware.logged, healthy, State.transferred, h.mem, h.disk,
    store_zeros,
    true_or]
  exact ⟨_, rfl, h.drive, rfl, rfl, h.errnum, h.memLower, h.memUpper, rfl⟩

theorem Healthy.readTrack (h : Healthy b v st) (rq : Request) (slen vtrack : Nat) :
    ∃ addr st', st.readTrack (healthy b).logged 0x80 rq slen vtrack = some (addr, st') ∧ Healthy b v st' := by
  unfold State.readTrack
  dsimp only
  obtain ⟨st₁, hread, h₁⟩ : ∃ st₁, (if vtrack - (rq.sector % vtrack).toNat < slen then
      Drive.biosdisk (healthy b).logged .read 0x80 rq.sector (vtrack - (rq.sector % vtrack).toNat) bufferAddr st
    else Drive.biosdisk (healthy b).logged .read 0x80 (rq.sector - (rq.sector % vtrack).toNat) vtrack bufferAddr st) = some (0, st₁) ∧
      Healthy b v st₁ := by
    split
    · exact h.biosdisk _ _ _
    · exact h.biosdisk _ _ _
  rw [hread]
  exact ⟨_, _, rfl, h₁.drive, h₁.geometry, h₁.mem, h₁.errnum, h₁.memLower, h₁.memUpper, h₁.disk⟩

theorem Healthy.mapSectorZero (h : Healthy b v st) (slen : Nat) : st.mapSectorZero (healthy b).logged 0x80 rq slen = some st := by
  unfold State.mapSectorZero
  have hplain : isEzd (st.at bufferAddr) = false := by
    have hzero : st.at bufferAddr = fun _ => 0 := by
      unfold State.at
      rw [h.mem]
    rw [hzero]
    decide
  rw [if_neg]
  rintro ⟨-, hezd⟩
  rw [hplain] at hezd
  cases hezd

theorem Healthy.fill (h : Healthy b v st) (rq : Request) (slen vtrack : Nat) :
    ∃ addr st', st.fill (healthy b).logged 0x80 rq slen vtrack = some (addr, st') ∧ Healthy b v st' := by
  unfold State.fill
  dsimp only
  split
  · exact ⟨_, _, rfl, h⟩
  · obtain ⟨addr, st₁, hread, h₁⟩ := h.readTrack rq slen vtrack
    rw [hread]
    dsimp only
    rw [h₁.mapSectorZero]
    exact ⟨_, _, rfl, h₁⟩

theorem Healthy.told (h : Healthy b v st) (used : List Told) : Healthy b v (st.told (some quietHook.logged) used) := by
  simp only [State.told]
  induction used generalizing st with
  | nil => exact h
  | cons call used ih =>
    rw [List.foldl_cons]
    exact ih ⟨h.drive, h.geometry, h.mem, h.errnum, h.memLower, h.memUpper, h.disk⟩

theorem Healthy.delivered (h : Healthy b v st) {buf : Int} (bufaddr : Int) {size : Nat} (hlow : 0x1000 ≤ buf) (hhigh : buf < 2 ^ 31)
    (hsize : size ≤ bufferLen) : Healthy b v (st.delivered buf bufaddr size).2 := by
  have husable : st.Usable buf size := by
    have hwhole : Int.bmod buf (2 ^ 32) = buf := by
      rw [Int.bmod_eq_of_le (by omega) (by omega)]
    unfold State.Usable unsigned
    unfold bufferLen at hsize
    rw [hwhole, h.memLower, h.memUpper]
    dsimp only
    omega
  unfold State.delivered
  rw [State.memcheck_of_usable husable]
  dsimp only
  rw [if_pos h.errnum]
  refine ⟨h.drive, h.geometry, ?_, h.errnum, h.memLower, h.memUpper, h.disk⟩
  show Memory.store st.mem _ (Memory.slice st.mem _ _) = _
  rw [h.mem, store_zeros]

theorem Geometry.wide_sized (hb : b = 512 ∨ b = 2048) : (Geometry.wide b v).Sized := hb

theorem Geometry.wide_vtrack (hb : b = 512 ∨ b = 2048) (hfits : v * b ≤ bufferLen) : (Geometry.wide b v).sectorsPerVtrack = v := by
  have hsized := Geometry.wide_sized (v := v) hb
  unfold Geometry.sectorsPerVtrack
  rw [hsized.shiftLeft]
  exact if_neg (Nat.not_lt.2 hfits)

/-- A pass takes what is left of the track. -/
theorem Healthy.pass (h : Healthy b v st) (hb : b = 512 ∨ b = 2048) (hv : 0 < v) (hfits : v * b ≤ bufferLen)
    (hsector : 0 ≤ rq.sector ∧ rq.sector < 2 ^ 31) (hlow : 0 ≤ rq.byteOffset) (hhigh : rq.byteOffset < b) (hpos : 0 < rq.byteLen)
    (hbuf : 0x1000 ≤ rq.buf ∧ rq.buf < 2 ^ 31) :
    ∃ bytes st', st.pass (healthy b).logged (some quietHook.logged) 0x80 rq =
      .next ⟨Int.bmod (rq.sector + (v - rq.sector % v)) (2 ^ 32), 0, rq.byteLen - min rq.byteLen ((v - rq.sector % v) * b - rq.byteOffset),
        rq.buf + min rq.byteLen ((v - rq.sector % v) * b - rq.byteOffset)⟩ bytes st' ∧ Healthy b v st' := by
  have hmod := Int.emod_nonneg rq.sector (show (v : Int) ≠ 0 by omega)
  have hin := Int.emod_lt_of_pos rq.sector (show (0 : Int) < v by omega)
  have hrest : ((v - (rq.sector % v).toNat : Nat) : Int) = v - rq.sector % v := by omega
  have hpiece : (((v - (rq.sector % v).toNat) <<< log2 (Geometry.wide b v).sectorSize : Nat) : Int) = (v - rq.sector % v) * b := by
    rw [(Geometry.wide_sized hb).shiftLeft, Int.natCast_mul, hrest]
    rfl
  have hone : 1 * (b : Int) ≤ (v - rq.sector % v) * b := Int.mul_le_mul_of_nonneg_right (by omega) (by omega)
  have hmost : (v - rq.sector % v) * (b : Int) ≤ v * b := Int.mul_le_mul_of_nonneg_right (by omega) (by omega)
  have hinside : ¬ (Geometry.wide b v).outside rq.sector := by
    unfold Geometry.outside unsigned Geometry.wide
    dsimp only
    omega
  obtain ⟨addr, st₁, hfill, h₁⟩ := h.fill rq ((Geometry.wide b v).slen rq) v
  unfold State.pass
  dsimp only
  rw [h.geometry, if_neg hinside, Geometry.wide_vtrack hb hfits, if_neg (by omega), hfill]
  dsimp only
  rw [hpiece, if_neg (by omega)]
  have htold := h₁.told (sectorsUsed (Geometry.wide b v).sectorSize rq (min rq.byteLen ((v - rq.sector % v) * b - rq.byteOffset)))
  have hsize : (min rq.byteLen ((v - rq.sector % v) * (b : Int) - rq.byteOffset)).toNat ≤ bufferLen := by omega
  have hdelivered := htold.delivered addr hbuf.1 hbuf.2 hsize
  rw [hrest]
  exact ⟨_, _, rfl, hdelivered⟩

/-- What is left of a request ends within the sectors and the memory that there are. -/
structure Request.Room (rq : Request) (b v : Nat) : Prop where
  sector : 0 ≤ rq.sector ∧ rq.sector < 2 ^ 31
  offset : 0 ≤ rq.byteOffset ∧ rq.byteOffset < b
  buf : 0x1000 ≤ rq.buf ∧ rq.buf < 2 ^ 31
  last : rq.lastTrack b v ≤ rq.sector ∨
    rq.lastTrack b v < 2 ^ 31 ∧ rq.buf + ((rq.lastTrack b v - rq.sector) * b - rq.byteOffset) < 2 ^ 31

theorem Request.Room.next {rq' : Request} (h : rq.Room b v) (hb : 0 < b) (hv : 0 < v) (hnext : rq.Next b v rq') :
    rq'.Room b v := by
  have hin := Int.emod_lt_of_pos rq.sector (show (0 : Int) < v by omega)
  have hlater := hnext.le_lastTrack hv
  have hsame := hnext.lastTrack hb
  have hsector := hnext.sector
  have hoffset := hnext.offset
  have hlow := h.sector.1
  obtain ⟨hlast, hend⟩ := h.last.resolve_left (by omega)
  have hway : 0 * (b : Int) ≤ (rq'.lastTrack b v - rq'.sector) * b := Int.mul_le_mul_of_nonneg_right (by omega) (by omega)
  have hone : 1 * (b : Int) ≤ (v - rq.sector % v) * b := Int.mul_le_mul_of_nonneg_right (by omega) (by omega)
  have hbuf := h.buf.1
  have hplace := hnext.buf
  have hfirst := h.offset
  rw [hnext.way hb] at hend
  rw [← hsame] at hlast
  exact ⟨by omega, by omega, by omega, .inr ⟨hlast, hend⟩⟩

/-- **The loop** comes to its end. -/
theorem Healthy.loop (hb : b = 512 ∨ b = 2048) (hv : 0 < v) (hfits : v * b ≤ bufferLen) {fuel : Nat} (h : Healthy b v st)
    (hfuel : rq.byteLen.toNat < fuel) (hroom : 0 < rq.byteLen → rq.Room b v) :
    ∃ out' st', rawreadLoop (healthy b).logged (some quietHook.logged) 0x80 fuel rq out st = some (true, out', st') ∧ Healthy b v st' := by
  induction fuel generalizing rq out st with
  | zero => omega
  | succ fuel ih =>
    rw [rawreadLoop]
    by_cases hpos : 0 < rq.byteLen
    · obtain ⟨hsector, hoffset, hbuf, hlast⟩ := hroom hpos
      obtain ⟨bytes, st₁, hpass, h₁⟩ := h.pass hb hv hfits hsector hoffset.1 hoffset.2 hpos hbuf
      rw [if_pos ⟨hpos, h.errnum⟩, State.selectDrive, if_pos h.drive]
      dsimp only
      rw [if_pos rfl, hpass]
      dsimp only
      have hin := Int.emod_lt_of_pos rq.sector (show (0 : Int) < v by omega)
      have hone : 1 * (b : Int) ≤ (v - rq.sector % v) * b := Int.mul_le_mul_of_nonneg_right (by omega) (by omega)
      apply ih h₁
      · dsimp only
        omega
      · intro hmore
        dsimp only at hmore
        have hall : min rq.byteLen ((v - rq.sector % v) * (b : Int) - rq.byteOffset) = (v - rq.sector % v) * b - rq.byteOffset := by omega
        rw [hall] at hmore ⊢
        have hnext : rq.Next b v ⟨rq.sector + (v - rq.sector % v), 0, rq.byteLen - ((v - rq.sector % v) * b - rq.byteOffset),
          rq.buf + ((v - rq.sector % v) * b - rq.byteOffset)⟩ := ⟨rfl, rfl, rfl, rfl, hmore⟩
        have hnextRoom := (hroom hpos).next (by omega) hv hnext
        rw [Int.bmod_eq_of_le (by omega) (by have := hnextRoom.sector.2; dsimp only at this; omega)]
        exact hnextRoom
    · rw [if_neg fun hgo => hpos hgo.1, decide_eq_true h.errnum]
      exact ⟨_, _, rfl, h⟩

/-- Before the first read. -/
def wideState (b v : Nat) : State (Unit × List Told) where
  bufDrive := 0x80
  bufTrack := -1
  bufGeom := .wide b v
  mem _ := 0
  errnum := .none
  memLower := 2 ^ 22 - 1
  memUpper := 2 ^ 22 - 1
  disk _ _ := 0
  world := ((), [])

theorem wideState_healthy (b v : Nat) : Healthy b v (wideState b v) := ⟨rfl, rfl, rfl, rfl, rfl, rfl, rfl⟩

/-- A request that can be served is served there. -/
theorem wideState_serves {partStart partLength : Nat} (hb : b = 512 ∨ b = 2048) (hv : 0 < v) (hfits : v * b ≤ bufferLen)
    (hpassed : ¬ Refused partLength rq) (hpos : 0 < rq.byteLen) (hreach : (passedOn partStart rq).Reachable b v) (hbuf : rq.buf = 0x1000) :
    ∃ out st', devread (healthy b).logged (some quietHook.logged) 0x80 partStart partLength rq (wideState b v) = some (true, out, st') ∧
      Healthy b v st' := by
  rw [devread_eq, if_neg hpassed, rawread, if_neg (show ¬ (passedOn partStart rq).byteLen ≤ 0 from Int.not_le.2 hpos)]
  obtain ⟨hlow, hhigh⟩ := passedOn_offset partStart rq
  have hplace : (passedOn partStart rq).buf = 0x1000 := hbuf
  apply (wideState_healthy b v).loop hb hv hfits
  · omega
  · intro _
    refine ⟨⟨hreach.sector, Int.bmod_lt (by decide)⟩, ⟨hlow, by omega⟩, by omega, hreach.last.imp id fun hlast => ⟨hlast.1, ?_⟩⟩
    omega

end Healthy

/-- **The condition is needed.** -/
theorem safe_of_confined {partStart partLength : Nat} {sector byteOffset byteLen : Int32}
    (h : Confined partStart partLength sector byteOffset byteLen) : Safe partStart partLength (request sector byteOffset byteLen 0) := by
  by_cases hrefused : Refused partLength (request sector byteOffset byteLen 0)
  · exact .inl hrefused
  by_cases hnone : (request sector byteOffset byteLen 0).byteLen ≤ 0
  · exact .inr (.inl hnone)
  refine .inr (.inr fun b v hb hv hfits hreach => ?_)
  have hpos : 0 < byteLen.toInt := Int.not_le.1 hnone
  have hreach' : (passedOn partStart (request sector byteOffset byteLen 0x1000)).Reachable b v := ⟨hreach.sector, hreach.last⟩
  have hbuf : (request sector byteOffset byteLen 0x1000).buf = 0x1000 := show (0x1000 : Int32).toInt = 0x1000 by decide
  have hpassed : ¬ Refused partLength (request sector byteOffset byteLen 0x1000) := hrefused
  obtain ⟨out, st', hread, hhealthy⟩ := wideState_serves hb hv hfits hpassed hpos hreach' hbuf
  have hlogs := logged_logs (healthy b) quietHook
  have hsized : (wideState b v).bufGeom.Sized := hb
  obtain ⟨-, -, calls, hlog, hin⟩ := (h _ _ _ _ 0x80 0x1000 _ _ _ _ hlogs (.inr hsized) (by decide) hread).1 rfl
  rw [devread_eq, if_neg hpassed] at hread
  obtain ⟨hlow, hhigh⟩ := passedOn_offset partStart (request sector byteOffset byteLen 0x1000)
  obtain ⟨-, -, -, -, -, calls', hlog', hcovers⟩ :=
    rawread_served hlogs (fun _ => hsized) hread (Int.bmod_lt (by decide)) hlow hhigh hpos byteLen.toInt_lt
  obtain rfl := List.append_cancel_left (hlog.symm.trans hlog')
  rw [hhealthy.geometry] at hcovers
  exact (told_within_iff hlow (by show _ < (b : Int); omega) hpos hcovers).1 hin

/-- **Partition confinement.** For all partitions and requests of 32 bits: a request stays within the partition, in all
states of the track buffer and whatever drives and memory do, if and only if it is refused, or asks for nothing, or
what is passed on lies in the partition on all drives that can serve it. -/
theorem devread_confined_iff (partStart partLength : BitVec 32) (sector byteOffset byteLen : Int32) :
    Confined partStart.toNat partLength.toNat sector byteOffset byteLen ↔
      Safe partStart.toNat partLength.toNat (request sector byteOffset byteLen 0) :=
  ⟨safe_of_confined, confined_of_safe partStart.isLt⟩

/-- With an offset before the first sector, the sector before the partition is read. -/
theorem devread_reads_before : ¬ Confined 63 1000 0 (-512) 1024 := by
  intro h
  have hpassed : ¬ Refused 1000 (request 0 (-512) 1024 0) := by decide
  have hsafe := ((safe_of_confined h).resolve_left hpassed).resolve_left (by decide) 512 63 (.inl rfl) (by decide) (by decide)
  have hwithin := hsafe ⟨by decide, .inr (by decide)⟩
  exact absurd hwithin.1 (by decide)

end TrustedGrub.Drive
