import TrustedGrub.Drive.Fill

/-!
# The loop of `rawread`

A pass serves the part of the request that lies in one track. Every pass but the first
starts at a track, and leaves the state coherent even when the pass before it has not.
-/

namespace TrustedGrub.Drive
open Fips180 (Byte)
open Disk (GrubError)
open Memory (slice store)

variable {ω : Type} {fw : Firmware ω} {drive : Int} {st st₁ st' : State ω}

/-- `disk_read_func` sets no error. -/
def Quiet (hook : Option (Hook ω)) : Prop := ∀ h ∈ hook, ∀ world sector offset length, (h world sector offset length).1 = .none

/-! ## What reaches the caller -/

theorem SameBuffer.refl (st : State ω) : SameBuffer st st := ⟨rfl, rfl, rfl, rfl, rfl⟩

theorem SameBuffer.failed (st : State ω) (e : GrubError) : SameBuffer st (st.failed e) := ⟨rfl, rfl, rfl, rfl, rfl⟩

theorem SameBuffer.trans (h : SameBuffer st st₁) (h' : SameBuffer st₁ st') : SameBuffer st st' where
  bufDrive := h'.bufDrive.trans h.bufDrive
  bufTrack := h'.bufTrack.trans h.bufTrack
  bufGeom := h'.bufGeom.trans h.bufGeom
  data := by
    have hdata := h'.data
    rw [h.bufGeom] at hdata
    exact hdata.trans h.data
  disk := h'.disk.trans h.disk

/-- No byte of the destination lies in the track buffer. -/
def Request.Apart (rq : Request) : Prop :=
  ∀ i : Nat, i < rq.byteLen.toNat → unsigned (rq.buf + i) < bufferAddr ∨ bufferAddr + bufferLen ≤ unsigned (rq.buf + i)

/-- What is left of the destination. -/
theorem Request.Apart.rest {rq : Request} (h : rq.Apart) {n : Nat} (hlen : rq.byteLen = n) (sector byteOffset : Int) (k : Nat) :
    Request.Apart ⟨sector, byteOffset, (n - k : Nat), rq.buf + k⟩ := by
  intro i hi
  rw [Int.toNat_natCast] at hi
  have hbyte := h (k + i) (by omega)
  rwa [Int.natCast_add, ← Int.add_assoc] at hbyte

/-- `told` and `delivered` leave the buffer and the limits of the memory alone. -/
structure Unfilled (st st' : State ω) : Prop where
  same : SameBuffer st st'
  memLower : st'.memLower = st.memLower
  memUpper : st'.memUpper = st.memUpper

theorem Unfilled.refl (st : State ω) : Unfilled st st := ⟨.refl _, rfl, rfl⟩

theorem Unfilled.trans (h : Unfilled st st₁) (h' : Unfilled st₁ st') : Unfilled st st' :=
  ⟨h.same.trans h'.same, h'.memLower.trans h.memLower, h'.memUpper.trans h.memUpper⟩

theorem Unfilled.kept (h : Unfilled st st') : Kept st st' :=
  ⟨h.same.bufDrive, h.same.disk, h.memLower, h.memUpper, .inl h.same.bufGeom⟩

theorem Kept.usable (h : Kept st st') {addr len : Int} : st'.Usable addr len ↔ st.Usable addr len := by
  unfold State.Usable
  rw [h.memLower, h.memUpper]

theorem told_unfilled (hook : Option (Hook ω)) (used : List (Int × Int × Int)) (st : State ω) :
    Unfilled st (st.told hook used) ∧ (st.told hook used).mem = st.mem ∧ (Quiet hook → (st.told hook used).errnum = st.errnum) ∧
      ((st.told hook used).errnum = .none → st.errnum = .none) := by
  cases hook with
  | none => exact ⟨.refl _, rfl, fun _ => rfl, id⟩
  | some h =>
    simp only [State.told]
    induction used generalizing st with
    | nil => exact ⟨.refl _, rfl, fun _ => rfl, id⟩
    | cons call used ih =>
      obtain ⟨hrest, hmem, herr, hclear⟩ := ih (st.toldOne h call)
      have hone : Unfilled st (st.toldOne h call) := ⟨⟨rfl, rfl, rfl, rfl, rfl⟩, rfl, rfl⟩
      refine ⟨hone.trans hrest, hmem, fun hquiet => (herr hquiet).trans ?_, fun hnone => ?_⟩
      · simp only [State.toldOne, hquiet h rfl, if_true]
      · have hfirst := hclear hnone
        simp only [State.toldOne] at hfirst
        split at hfirst
        next => exact hfirst
        next he => exact absurd hfirst he

/-- A usable destination that lies apart from the track buffer leaves it as it is. -/
theorem store_apart {buf : Int} {size : Nat} (husable : st.Usable buf size) (hsize : size < 2 ^ 31)
    (hapart : ∀ i : Nat, i < size → unsigned (buf + i) < bufferAddr ∨ bufferAddr + bufferLen ≤ unsigned (buf + i)) {bytes : List Byte}
    (hbytes : bytes.length = size) {n : Nat} (hn : n ≤ bufferLen) :
    slice (store st.mem (unsigned buf) bytes) bufferAddr n = slice st.mem bufferAddr n := by
  refine Memory.slice_congr fun x hlow hhigh => ?_
  by_cases hbelow : x < unsigned buf
  · exact Memory.store_of_lt hbelow
  by_cases habove : unsigned buf + bytes.length ≤ x
  · exact Memory.store_of_ge habove
  · -- a usable destination does not pass the end of the addresses
    have hplace : unsigned (buf + (x - unsigned buf : Nat)) = x := by
      unfold State.Usable at husable
      dsimp only at husable
      rw [Int.bmod_def] at husable
      unfold unsigned at hbelow habove ⊢
      split at husable <;> omega
    have hcell := hapart (x - unsigned buf) (by omega)
    rw [hplace] at hcell
    omega

theorem delivered_unfilled (buf bufaddr : Int) {size : Nat} {st : State ω} (hfits : st.bufGeom.sectors * st.bufGeom.sectorSize ≤ bufferLen)
    (hsize : size < 2 ^ 31) (hapart : ∀ i : Nat, i < size → unsigned (buf + i) < bufferAddr ∨ bufferAddr + bufferLen ≤ unsigned (buf + i)) :
    Unfilled st (st.delivered buf bufaddr size).2 ∧
      ((st.delivered buf bufaddr size).2.errnum = .none → st.errnum = .none ∧
        (st.delivered buf bufaddr size).1 = slice st.mem (unsigned bufaddr) size) ∧
      (st.Usable buf size → (st.delivered buf bufaddr size).2.errnum = st.errnum) := by
  unfold State.delivered State.memcheck
  dsimp only
  by_cases husable : st.Usable buf size
  · rw [if_pos husable]
    split
    next hok =>
      exact ⟨⟨⟨rfl, rfl, rfl, store_apart husable hsize hapart (Memory.slice_length _ _ _) hfits, rfl⟩, rfl, rfl⟩, fun _ => ⟨hok, rfl⟩,
        fun _ => rfl⟩
    next hok => exact ⟨.refl _, fun h => absurd h hok, fun _ => rfl⟩
  · have hfailed : (st.failed .wontFit).errnum ≠ .none := State.failed_errnum _ (by decide)
    rw [if_neg husable, if_neg hfailed]
    exact ⟨⟨.failed _ _, rfl, rfl⟩, fun hok => absurd hok hfailed, fun h => absurd h husable⟩

/-! ## One pass -/

/-- What a pass that goes on comes to. -/
structure Passed (hook : Option (Hook ω)) (buf : Int) (t soff b n : Nat) (st : State ω) (bytes : List Byte) (st' : State ω) :
    Prop where
  kept : Kept st st'
  data : st'.errnum = .none → bytes = slice (mapped st.bufGeom.sectorSize (st.disk (unit st.bufDrive)))
    ((t + soff) * st.bufGeom.sectorSize + b) (st.bufGeom.pieceSize soff b n)
  key : st'.bufTrack = -1 ∨ st'.Holds t ∨
    (0 < soff ∧ st.bufTrack ≠ t ∧ (st.bufGeom.sectors - soff) * st.bufGeom.sectorSize < b + n ∧ st'.bufTrack = t ∧
      (Quiet hook → st.Usable buf (st.bufGeom.pieceSize soff b n : Nat) → st'.errnum = .none) ∧
      (st'.bufGeom ≠ st.bufGeom → (t + soff) / st.bufGeom.sectors / st.bufGeom.heads < st.bufGeom.cylinders))

variable {rq : Request} {t soff b n : Nat}

theorem Request.At.piece_pos (hat : rq.At st.bufGeom t soff b n) : 0 < st.bufGeom.pieceSize soff b n := by
  have hpos : st.bufGeom.sectorSize ≤ (st.bufGeom.sectors - soff) * st.bufGeom.sectorSize :=
    Nat.le_mul_of_pos_left _ (Nat.sub_pos_of_lt hat.soff_lt)
  have hb := hat.b_lt
  have hn := hat.n_pos
  unfold Geometry.pieceSize
  omega

theorem pass_spec (hook : Option (Hook ω)) (hd : Described fw (unit st.bufDrive) st.bufGeom) (hat : rq.At st.bufGeom t soff b n)
    (hapart : rq.Apart) (hok : st.errnum = .none) (hin : ¬ st.bufGeom.outside rq.sector) (hkey : st.bufTrack = t → st.Holds t)
    (hsafe : st.bufTrack ≠ t → MapSafe st t soff b n) :
    ∃ bytes st', st.pass fw hook st.bufDrive rq =
        .next ⟨Int.bmod (t + st.bufGeom.sectors : Nat) (2 ^ 32), 0, (n - st.bufGeom.pieceSize soff b n : Nat),
          rq.buf + st.bufGeom.pieceSize soff b n⟩ bytes st' ∧
      Passed hook rq.buf t soff b n st bytes st' := by
  have hsize : min rq.byteLen (((st.bufGeom.sectors - soff) * st.bufGeom.sectorSize : Nat) - rq.byteOffset) =
      (st.bufGeom.pieceSize soff b n : Nat) := by
    have hpos : st.bufGeom.sectorSize ≤ (st.bufGeom.sectors - soff) * st.bufGeom.sectorSize :=
      Nat.le_mul_of_pos_left _ (Nat.sub_pos_of_lt hat.soff_lt)
    have hb := hat.b_lt
    rw [hat.byteLen, hat.byteOffset]
    unfold Geometry.pieceSize
    omega
  have hnext : rq.sector + (st.bufGeom.sectors - soff : Nat) = (t + st.bufGeom.sectors : Nat) := by
    have := hat.soff_lt
    rw [hat.sector]
    omega
  have hpart : st.bufGeom.pieceSize soff b n ≤ n := Nat.min_le_left _ _
  obtain ⟨addr, st₁, hfill, hkept, hfilled⟩ := fill_spec hd hat hok hkey hsafe
  simp only [State.pass, hd.sectorsPerVtrack, hat.emod, hfill, hd.shiftLeft, hsize, hnext]
  rw [if_neg hin, if_neg hd.sectors_pos.ne', if_neg (by omega)]
  generalize hused : sectorsUsed st.bufGeom.sectorSize rq (st.bufGeom.pieceSize soff b n : Nat) = used
  obtain ⟨htold, hmem, hquiet, hclear⟩ := told_unfilled hook used st₁
  have hfits : (st₁.told hook used).bufGeom.sectors * (st₁.told hook used).bufGeom.sectorSize ≤ bufferLen := by
    rw [htold.same.bufGeom, hkept.sectors, hkept.sectorSize]
    exact hd.fits
  have hn := hat.n_lt
  obtain ⟨hdeliv, hbytes, husable⟩ := delivered_unfilled rq.buf addr hfits (Nat.lt_of_le_of_lt hpart hn)
    fun i hi => hapart i (by rw [hat.byteLen, Int.toNat_natCast]; omega)
  rw [Int.toNat_natCast]
  generalize (st₁.told hook used).delivered rq.buf addr (st.bufGeom.pieceSize soff b n) = result at hdeliv hbytes husable
  obtain ⟨bytes, st'⟩ := result
  have hall : Kept st st' := (hkept.trans htold.kept).trans hdeliv.kept
  have hsame : SameBuffer st₁ st' := htold.same.trans hdeliv.same
  have herr₁ : st'.errnum = .none → (st₁.told hook used).errnum = .none := fun herr => (hbytes herr).1
  have hserved : st₁.Serves addr t soff b n → st'.errnum = .none → bytes =
      slice (mapped st.bufGeom.sectorSize (st.disk (unit st.bufDrive))) ((t + soff) * st.bufGeom.sectorSize + b)
        (st.bufGeom.pieceSize soff b n) := by
    intro hserves herr
    unfold State.Serves Geometry.pieceSize at hserves
    rw [hkept.sectors, hkept.sectorSize, hkept.disk, hkept.bufDrive] at hserves
    have hbytes' := (hbytes herr).2
    rw [hmem] at hbytes'
    exact hbytes'.trans hserves
  refine ⟨bytes, st', by simp only [hat.byteLen]; congr 2; omega, ?_⟩
  cases hfilled with
  | failed key err =>
    refine ⟨hall, fun herr => ?_, .inl (hsame.bufTrack.trans key)⟩
    exact absurd (hclear (herr₁ herr)) err
  | held err data key =>
    exact ⟨hall, hserved data, key.imp (hsame.bufTrack.trans ·) fun h => .inl (hsame.holds h)⟩
  | rest inside fresh key runsOn err data fallback =>
    refine ⟨hall, hserved data, .inr (.inr ⟨inside, fresh, runsOn, hsame.bufTrack.trans key, ?_, ?_⟩)⟩
    · intro hq hus
      rw [husable ((hkept.trans htold.kept).usable.2 hus), hquiet hq, err]
    · rw [hsame.bufGeom]
      exact fallback

/-! ## The passes behind the first -/

/-- The buffer is keyed by no track, or by the one it holds. -/
def State.Keyed (st : State ω) : Prop := st.bufTrack = -1 ∨ ∃ t, st.Holds t

/-- A request for `n` bytes from the start of a track on. -/
structure Request.Aligned (rq : Request) (g : Geometry) (n : Nat) : Prop where
  low : -2 ^ 31 ≤ rq.sector
  high : rq.sector < 2 ^ 31
  track : 0 ≤ rq.sector → g.sectors ∣ rq.sector.toNat
  byteOffset : rq.byteOffset = 0
  byteLen : rq.byteLen = n
  n_lt : n < 2 ^ 31
  apart : rq.Apart

theorem Request.Aligned.at (ha : rq.Aligned st.bufGeom n) (hd : Described fw (unit st.bufDrive) st.bufGeom) (hpos : 0 < n)
    (hin : ¬ st.bufGeom.outside rq.sector) : rq.At st.bufGeom rq.sector.toNat 0 0 n := by
  simp only [Geometry.outside, not_or, Int.not_lt] at hin
  refine ⟨by omega, by have := ha.high; omega, ha.track hin.1, hd.sectors_pos, ha.byteOffset, ha.byteLen, ?_, hpos, ha.n_lt⟩
  have := hd.size
  omega

/-- A sector number that has left the range of an `int` is negative. -/
theorem bmod_natCast {x : Nat} (h : x < 2 ^ 32) :
    (x < 2 ^ 31 ∧ Int.bmod x (2 ^ 32) = x) ∨ (2 ^ 31 ≤ x ∧ Int.bmod x (2 ^ 32) = x - 2 ^ 32) := by
  rw [Int.bmod_def, Int.emod_eq_of_lt (by omega) (by omega)]
  split
  next hlow => exact .inl ⟨by omega, rfl⟩
  next hhigh => exact .inr ⟨by omega, rfl⟩

theorem Described.sectors_le {unit : Nat} (hd : Described fw unit st.bufGeom) : st.bufGeom.sectors ≤ bufferLen :=
  Nat.le_trans (Nat.le_mul_of_pos_right _ (by have := hd.size; omega)) hd.fits

/-- The sector behind a track, as an `int`. -/
theorem nextTrack_cases (hd : Described fw (unit st.bufDrive) st.bufGeom) (ht : t < 2 ^ 31) :
    (t + st.bufGeom.sectors < 2 ^ 31 ∧ Int.bmod (t + st.bufGeom.sectors : Nat) (2 ^ 32) = (t + st.bufGeom.sectors : Nat)) ∨
      (2 ^ 31 ≤ t + st.bufGeom.sectors ∧
        Int.bmod (t + st.bufGeom.sectors : Nat) (2 ^ 32) = (t + st.bufGeom.sectors : Nat) - 2 ^ 32) := by
  have hfits := hd.sectors_le
  rw [bufferLen] at hfits
  exact bmod_natCast (by omega)

theorem nextTrack_aligned (hd : Described fw (unit st.bufDrive) st.bufGeom) (hkept : Kept st st') {buf : Int}
    (haligned : st.bufGeom.sectors ∣ t) (ht : t < 2 ^ 31) (hn : n < 2 ^ 31)
    (hapart : Request.Apart ⟨Int.bmod (t + st.bufGeom.sectors : Nat) (2 ^ 32), 0, n, buf⟩) :
    Request.Aligned ⟨Int.bmod (t + st.bufGeom.sectors : Nat) (2 ^ 32), 0, n, buf⟩ st'.bufGeom n := by
  have hfits := hd.sectors_le
  rw [bufferLen] at hfits
  rcases nextTrack_cases hd ht with ⟨hlt, h⟩ | ⟨hge, h⟩ <;> rw [h] at hapart ⊢
  · refine ⟨by simp only; omega, by simp only; omega, fun _ => ?_, rfl, rfl, hn, hapart⟩
    simp only [Int.toNat_natCast, hkept.sectors]
    exact Nat.dvd_add haligned (Nat.dvd_refl _)
  · refine ⟨by simp only; omega, by simp only; omega, fun hpos => ?_, rfl, rfl, hn, hapart⟩
    simp only at hpos
    omega

theorem nextTrack_ne (hd : Described fw (unit st.bufDrive) st.bufGeom) (ht : t < 2 ^ 31) :
    Int.bmod (t + st.bufGeom.sectors : Nat) (2 ^ 32) ≠ t ∧ Int.bmod (t + st.bufGeom.sectors : Nat) (2 ^ 32) ≠ 0 := by
  have hpos := hd.sectors_pos
  have hfits := hd.sectors_le
  rw [bufferLen] at hfits
  rcases nextTrack_cases hd ht with ⟨-, h⟩ | ⟨-, h⟩ <;> omega

/-- What lies in this track and what lies behind it is all. -/
theorem Request.At.pieces_append (hat : rq.At st.bufGeom t soff b n) (hd : Described fw (unit st.bufDrive) st.bufGeom) {next : Int}
    (hcases : (t + st.bufGeom.sectors < 2 ^ 31 ∧ next = (t + st.bufGeom.sectors : Nat)) ∨
      (2 ^ 31 ≤ t + st.bufGeom.sectors ∧ next = (t + st.bufGeom.sectors : Nat) - 2 ^ 32))
    (hnext : n - st.bufGeom.pieceSize soff b n = 0 ∨ 0 ≤ next) (disk : Nat → Byte) :
    slice disk ((t + soff) * st.bufGeom.sectorSize + b) (st.bufGeom.pieceSize soff b n) ++
        slice disk (next.toNat * st.bufGeom.sectorSize) (n - st.bufGeom.pieceSize soff b n) =
      slice disk ((t + soff) * st.bufGeom.sectorSize + b) n := by
  have hpart : st.bufGeom.pieceSize soff b n ≤ n := Nat.min_le_left _ _
  have hdef : st.bufGeom.pieceSize soff b n = min n ((st.bufGeom.sectors - soff) * st.bufGeom.sectorSize - b) := rfl
  generalize st.bufGeom.pieceSize soff b n = size at hnext hpart hdef ⊢
  obtain ⟨k, rfl⟩ := Nat.exists_eq_add_of_le hpart
  rw [Nat.add_sub_cancel_left] at hnext ⊢
  rw [Memory.slice_add]
  congr 1
  rcases Nat.eq_zero_or_pos k with rfl | hpos
  · rfl
  · -- what goes on has taken the rest of the track
    have hsector : next.toNat = t + st.bufGeom.sectors := by
      rcases hcases with ⟨-, h⟩ | ⟨hge, h⟩
      · rw [h, Int.toNat_natCast]
      · have hfits := hd.sectors_le
        have hsmall := hat.small
        rw [bufferLen] at hfits
        omega
    have hroom : st.bufGeom.sectorSize ≤ (st.bufGeom.sectors - soff) * st.bufGeom.sectorSize :=
      Nat.le_mul_of_pos_left _ (Nat.sub_pos_of_lt hat.soff_lt)
    have hb := hat.b_lt
    have hsplit : (t + st.bufGeom.sectors) * st.bufGeom.sectorSize =
        (t + soff) * st.bufGeom.sectorSize + (st.bufGeom.sectors - soff) * st.bufGeom.sectorSize := by
      rw [← Nat.add_mul, Nat.add_assoc, Nat.add_sub_cancel' hat.soff_lt.le]
    have hplace : (t + soff) * st.bufGeom.sectorSize + b + size = (t + st.bufGeom.sectors) * st.bufGeom.sectorSize := by
      omega
    rw [hsector, hplace]

/-- A read that succeeds has found no error before. -/
theorem rawreadLoop_ok (hook : Option (Hook ω)) {fuel : Nat} {rq : Request} {out out' : List Byte}
    (h : rawreadLoop fw hook drive fuel rq out st = some (true, out', st')) : st.errnum = .none := by
  by_contra herr
  cases fuel with
  | zero => cases h
  | succ fuel =>
    simp only [rawreadLoop, herr, and_false, if_false, decide_false, Option.some.injEq, Prod.mk.injEq, Bool.false_eq_true,
      false_and] at h

/-- The loop, from the start of a track on. A key that is not true is that of another track,
and the pass does not stop before it has replaced it. -/
theorem rawreadLoop_aligned (hook : Option (Hook ω)) (fuel : Nat) : ∀ {st : State ω} {rq : Request} {n : Nat} (out : List Byte),
    Described fw (unit st.bufDrive) st.bufGeom → rq.Aligned st.bufGeom n → n < fuel →
    (rq.sector = 0 → st.bufTrack ≠ 0 → isEzd (st.disk (unit st.bufDrive)) = true →
      1 < st.bufGeom.sectors ∧ st.Usable bufferAddr st.bufGeom.sectorSize) →
    (st.Keyed ∨ (st.errnum = .none ∧ 0 < n ∧ ¬ st.bufGeom.outside rq.sector ∧ st.bufTrack ≠ rq.sector)) →
    ∃ ok rest st', rawreadLoop fw hook st.bufDrive fuel rq out st = some (ok, out ++ rest, st') ∧ Kept st st' ∧ st'.Keyed ∧
      (ok = true → rest = slice (mapped st.bufGeom.sectorSize (st.disk (unit st.bufDrive)))
        (rq.sector.toNat * st.bufGeom.sectorSize) n ∧ (n = 0 ∨ 0 ≤ rq.sector)) := by
  induction fuel with
  | zero => intro _ _ n _ _ _ hfuel; omega
  | succ fuel ih =>
    intro st rq n out hd ha hfuel hwide hkeyed
    simp only [rawreadLoop, State.selectDrive]
    by_cases hgo : 0 < rq.byteLen ∧ st.errnum = .none
    · rw [if_pos hgo]
      simp only [if_true]
      have hpos : 0 < n := by
        have := ha.byteLen
        omega
      by_cases hout : st.bufGeom.outside rq.sector
      · -- only a true key is left behind
        have hkey : st.Keyed := hkeyed.elim id fun h => absurd hout h.2.2.1
        refine ⟨false, [], st.failed .geom, ?_, (Kept.refl _).failed _, ?_, fun h => absurd h Bool.false_ne_true⟩
        · simp only [State.pass, if_pos hout, List.append_nil]
        · exact hkey.imp id fun ⟨t, ht⟩ => ⟨t, (SameBuffer.failed st _).holds ht⟩
      · have hat := ha.at hd hpos hout
        have hkey : st.bufTrack = rq.sector.toNat → st.Holds rq.sector.toNat := by
          intro hcached
          have hsector := hat.sector
          rcases hkeyed with (hnone | ⟨t, ht⟩) | ⟨-, -, -, hne⟩
          · omega
          · obtain rfl : t = rq.sector.toNat := by
              have := ht.key
              omega
            exact ht
          · omega
        have hsafe : st.bufTrack ≠ rq.sector.toNat → MapSafe st rq.sector.toNat 0 0 n := by
          intro hfresh
          have hsector := hat.sector
          exact ⟨fun hzero hezd => hwide (by omega) (by omega) hezd, fun _ h => absurd h (Nat.lt_irrefl 0)⟩
        obtain ⟨bytes, st₁, hpass, hpassed⟩ := pass_spec hook hd hat ha.apart hgo.2 hout hkey hsafe
        have hkept := hpassed.kept
        have hsize := hat.piece_pos
        have hpart : st.bufGeom.pieceSize 0 0 n ≤ n := Nat.min_le_left _ _
        have hlt : rq.sector.toNat < 2 ^ 31 := by
          have := hat.small
          omega
        have hne := (nextTrack_ne hd hlt).2
        have haligned := nextTrack_aligned hd hkept hat.aligned hlt (n := n - st.bufGeom.pieceSize 0 0 n) (by have := ha.n_lt; omega)
          (ha.apart.rest ha.byteLen _ _ _)
        have hcases := nextTrack_cases hd hlt
        generalize Int.bmod (rq.sector.toNat + st.bufGeom.sectors : Nat) (2 ^ 32) = next at hpass hne haligned hcases
        have hd₁ : Described fw (unit st₁.bufDrive) st₁.bufGeom := by rw [hkept.bufDrive]; exact hkept.described hd
        obtain ⟨ok, rest, st', hloop, hkept', hkeyed', hdata⟩ := ih (out ++ bytes) hd₁ haligned
          (by omega) (fun hzero => absurd hzero hne)
          (.inl (hpassed.key.elim .inl fun h => h.elim (fun h => .inr ⟨_, h⟩) fun h => absurd h.1 (Nat.lt_irrefl 0)))
        rw [hkept.bufDrive] at hloop
        have hrun : rawreadLoop fw hook st.bufDrive fuel _ (out ++ bytes) st₁ = some (ok, out ++ (bytes ++ rest), st') :=
          hloop.trans (by rw [List.append_assoc])
        refine ⟨ok, bytes ++ rest, st', by simp only [hpass]; exact hrun, hkept.trans hkept', hkeyed', fun hok => ⟨?_, ?_⟩⟩
        · obtain ⟨hrest, hpos'⟩ := hdata hok
          rw [hok] at hrun
          have hbytes := hpassed.data (rawreadLoop_ok hook hrun)
          rw [hkept.sectorSize, hkept.disk, hkept.bufDrive] at hrest
          rw [hbytes, hrest, hat.pieces_append hd hcases hpos']
          rfl
        · simp only [Geometry.outside, not_or, Int.not_lt] at hout
          exact .inr hout.1
    · rw [if_neg hgo]
      have hstop : ¬ (st.errnum = .none ∧ 0 < n) := by
        rintro ⟨herr, hpos⟩
        exact hgo ⟨by rw [ha.byteLen]; omega, herr⟩
      have hkey : st.Keyed := hkeyed.elim id fun h => absurd ⟨h.1, h.2.1⟩ hstop
      refine ⟨_, [], st, by rw [List.append_nil], .refl _, hkey, fun hok => ?_⟩
      have hzero : n = 0 := by
        have herr : st.errnum = .none := by simpa using hok
        by_contra hne
        exact hstop ⟨herr, Nat.pos_of_ne_zero hne⟩
      exact ⟨by rw [hzero, Memory.slice_zero], .inl hzero⟩

end TrustedGrub.Drive
