import TrustedGrub.Drive.Calls
import Mathlib.Tactic.Ring

/-!
# What `disk_read_func` is told

`rawread` reports the sectors that it has used, track by track. What it reports in a read that
succeeds is the range of bytes that was asked for, cut at the ends of the sectors.
-/

namespace TrustedGrub.Drive
open Disk (GrubError)

variable {ω : Type} {fw : Firmware ω}

/-- A call of `disk_read_func`: a sector, an offset in it, and a length. -/
abbrev Told := Int × Int × Int

/-- The pieces cover the bytes of the drive from `pos` as far as `stop`, one after the other. Each
has a byte at least, and lies in one sector. -/
def Covers (sectorSize : Int) : Int → Int → List Told → Prop
  | pos, stop, [] => pos = stop
  | pos, stop, (sector, offset, length) :: rest =>
    sector * sectorSize + offset = pos ∧ 0 ≤ offset ∧ 0 < length ∧ offset + length ≤ sectorSize ∧ Covers sectorSize (pos + length) stop rest

theorem Covers.append {ss a b c : Int} {xs ys : List Told} (h : Covers ss a b xs) (h' : Covers ss b c ys) : Covers ss a c (xs ++ ys) := by
  induction xs generalizing a with
  | nil =>
    have heq : a = b := h
    exact heq ▸ h'
  | cons x xs ih =>
    obtain ⟨hplace, hoffset, hlength, hfits, hrest⟩ := h
    exact ⟨hplace, hoffset, hlength, hfits, ih hrest⟩

/-- The firmware leaves a log that is kept in the world. -/
structure Unlogged (fw : Firmware ω) (log : ω → List Told) : Prop where
  transfer : ∀ world op unit address nsec, log (fw.transfer world op unit address nsec).2 = log world
  checkInt13Extensions : ∀ world unit, log (fw.checkInt13Extensions world unit).2 = log world
  specPacket : ∀ world unit, log (fw.specPacket world unit).2 = log world
  driveParameters : ∀ world unit, log (fw.driveParameters world unit).2 = log world
  registers : ∀ world unit, log (fw.registers world unit).2 = log world

/-- A log of the calls: the hook writes its calls there, and nothing else does. -/
structure Logs (fw : Firmware ω) (hook : Hook ω) (log : ω → List Told) : Prop where
  unlogged : Unlogged fw log
  hook : ∀ world sector offset length, log (hook world sector offset length).2 = log world ++ [(sector, offset, length)]

/-- The size of a sector of a disk or of a CD-ROM. -/
def Geometry.Sized (g : Geometry) : Prop := g.sectorSize = 512 ∨ g.sectorSize = 2048

/-! ## The pieces of a pass -/

section Pieces
variable {bytes : Nat} {sector : Int} {rq : Request} {size : Int}

theorem laterSectors_covers (hbytes : 0 < bytes) {length : Nat} (hlength : 0 < length) :
    Covers bytes (sector * bytes) (sector * bytes + length) (laterSectors bytes sector length) := by
  induction length using Nat.strong_induction_on generalizing sector with
  | _ length ih =>
    rw [laterSectors]
    split
    next hmore =>
      have hrest := @ih (length - bytes) (by omega) (sector + 1) (by omega)
      rw [Int.add_mul, Int.one_mul] at hrest
      refine ⟨Int.add_zero _, Int.le_refl 0, by omega, by omega, ?_⟩
      rw [show sector * (bytes : Int) + length = sector * bytes + bytes + ((length - bytes : Nat) : Int) by omega]
      exact hrest
    next hlast => exact ⟨Int.add_zero _, Int.le_refl 0, by omega, by omega, rfl⟩

theorem sectorsUsed_covers (hlow : 0 ≤ rq.byteOffset) (hhigh : rq.byteOffset < bytes) (hsize : 0 < size) :
    Covers bytes (rq.sector * bytes + rq.byteOffset) (rq.sector * bytes + rq.byteOffset + size) (sectorsUsed bytes rq size) := by
  unfold sectorsUsed
  refine ⟨rfl, hlow, by omega, by omega, ?_⟩
  split
  next hmore =>
    -- The first sector is used as far as its end.
    have hfirst : min ((bytes : Int) - rq.byteOffset) size = bytes - rq.byteOffset := by omega
    have hrest := @laterSectors_covers bytes (rq.sector + 1) (by omega) _
      (show 0 < (size - min ((bytes : Int) - rq.byteOffset) size).toNat by omega)
    rw [Int.toNat_of_nonneg (Int.le_of_lt hmore), hfirst, Int.add_mul, Int.one_mul] at hrest
    rw [hfirst, show rq.sector * (bytes : Int) + rq.byteOffset + (bytes - rq.byteOffset) = rq.sector * bytes + bytes by omega,
      show rq.sector * (bytes : Int) + rq.byteOffset + size = rq.sector * bytes + bytes + (size - (bytes - rq.byteOffset)) by omega]
    exact hrest
  next hend =>
    show rq.sector * (bytes : Int) + rq.byteOffset + min ((bytes : Int) - rq.byteOffset) size = _
    omega

end Pieces

/-! ## What calls no hook -/

section Silent
variable {log : ω → List Told} {drive : Int} {st st₁ st₂ : State ω} {rq : Request}

/-- Nothing is told, and the drive and the size of its sectors stay. -/
structure Silent (log : ω → List Told) (st st' : State ω) : Prop where
  log : log st'.world = log st.world
  bufDrive : st'.bufDrive = st.bufDrive
  sectorSize : st'.bufGeom.sectorSize = st.bufGeom.sectorSize

theorem Silent.refl (st : State ω) : Silent log st st := ⟨rfl, rfl, rfl⟩

theorem Silent.trans (h : Silent log st st₁) (h' : Silent log st₁ st₂) : Silent log st st₂ :=
  ⟨h'.log.trans h.log, h'.bufDrive.trans h.bufDrive, h'.sectorSize.trans h.sectorSize⟩

variable (drive) in
theorem int13_silent (hlogs : Unlogged fw log) (op : Operation) (address : Address) (nsec segment : Nat) (st : State ω) :
    Silent log st (int13 fw op drive address nsec segment st).2 := by
  have htransfer := hlogs.transfer st.world op (unit drive) address nsec
  unfold int13
  generalize fw.transfer st.world op (unit drive) address nsec = result at htransfer ⊢
  obtain ⟨status, world⟩ := result
  dsimp only
  split
  · cases op <;> exact ⟨htransfer, rfl, rfl⟩
  · cases op <;> exact ⟨htransfer, rfl, rfl⟩

theorem biosdiskStandard_silent (hlogs : Unlogged fw log) {op : Operation} {sector : Int} {nsec segment err : Nat}
    (h : biosdiskStandard fw op drive sector nsec segment st = some (err, st₁)) : Silent log st st₁ := by
  unfold biosdiskStandard at h
  dsimp only at h
  split at h
  · cases h
  split at h
  · cases h
    exact .refl st
  · have hsilent := int13_silent drive hlogs op (.chs (unsigned sector / st.bufGeom.sectors / st.bufGeom.heads)
      (unsigned sector / st.bufGeom.sectors % st.bufGeom.heads) (unsigned sector % st.bufGeom.sectors + 1)) nsec segment st
    rw [Option.some.inj h] at hsilent
    exact hsilent

theorem biosdisk_silent (hlogs : Unlogged fw log) {op : Operation} {sector : Int} {nsec segment err : Nat}
    (h : biosdisk fw op drive sector nsec segment st = some (err, st₁)) : Silent log st st₁ := by
  unfold biosdisk at h
  split at h
  · have hsilent := int13_silent drive hlogs op (.packet (sector % 2 ^ 64).toNat) nsec segment st
    generalize int13 fw op drive _ nsec segment st = result at h hsilent
    obtain ⟨err', st'⟩ := result
    dsimp only at h
    split at h
    · cases h
      exact hsilent
    · have hfallback := biosdiskStandard_silent hlogs h
      exact hsilent.trans ⟨hfallback.log, hfallback.bufDrive, hfallback.sectorSize⟩
  · exact biosdiskStandard_silent hlogs h

theorem readTrack_silent (hlogs : Unlogged fw log) {slen vtrack : Nat} {addr : Int}
    (h : st.readTrack fw drive rq slen vtrack = some (addr, st₁)) : Silent log st st₁ := by
  unfold State.readTrack at h
  dsimp only at h
  split at h
  · cases h
  next err st' hread =>
  have hsilent : Silent log st st' := by
    split at hread <;> exact biosdisk_silent hlogs hread
  split at h
  · cases h
    exact hsilent.trans ⟨rfl, rfl, rfl⟩
  split at h
  · cases h
    exact hsilent.trans ⟨rfl, rfl, rfl⟩
  split at h
  · cases h
    exact hsilent.trans ⟨rfl, rfl, rfl⟩
  generalize hagain : biosdisk fw .read drive rq.sector slen bufferAddr st'.invalidated = again at h
  obtain _ | ⟨err', st''⟩ := again
  · cases h
  have hinvalidated := biosdisk_silent hlogs hagain
  have hsilent' : Silent log st' st'' := ⟨hinvalidated.log, hinvalidated.bufDrive, hinvalidated.sectorSize⟩
  cases h
  split
  · exact hsilent.trans hsilent'
  · exact (hsilent.trans hsilent').trans ⟨rfl, rfl, rfl⟩

theorem memmove_silent (st : State ω) (addr : Nat) (bytes : List (BitVec 8)) : Silent log st (st.memmove addr bytes) := by
  unfold State.memmove State.memcheck
  dsimp only
  split <;> split <;> exact ⟨rfl, rfl, rfl⟩

theorem mapSectorZero_silent (hlogs : Unlogged fw log) {slen : Nat} (h : st.mapSectorZero fw drive rq slen = some st₁) :
    Silent log st st₁ := by
  unfold State.mapSectorZero at h
  split at h
  · split at h
    · cases h
      exact memmove_silent ..
    · generalize hread : biosdisk fw .read drive 1 1 bufferAddr st = read at h
      obtain _ | ⟨err, st'⟩ := read
      · cases h
      have hsilent : Silent log st st' := biosdisk_silent hlogs hread
      cases h
      split
      · exact hsilent
      · exact hsilent.trans ⟨rfl, rfl, rfl⟩
  · cases h
    exact .refl st

theorem fill_silent (hlogs : Unlogged fw log) {slen vtrack : Nat} {addr : Int} (h : st.fill fw drive rq slen vtrack = some (addr, st₁)) :
    Silent log st st₁ := by
  unfold State.fill at h
  dsimp only at h
  split at h
  · cases h
    exact .refl st
  generalize hread : st.readTrack fw drive rq slen vtrack = read at h
  obtain _ | ⟨addr', st'⟩ := read
  · cases h
  have hsilent : Silent log st st' := readTrack_silent hlogs hread
  dsimp only at h
  generalize hmap : st'.mapSectorZero fw drive rq slen = mapped at h
  obtain _ | st'' := mapped
  · cases h
  cases h
  exact hsilent.trans (mapSectorZero_silent hlogs hmap)

/-- What asking for a geometry comes to: nothing is told, and a drive that is not known leaves the
size of the sectors. -/
structure Asked (log : ω → List Told) (g : Geometry) (world : ω) (answer : Bool × Geometry × ω) : Prop where
  log : log answer.2.2 = log world
  sized : answer.1 = true → answer.2.1.Sized
  sectorSize : answer.1 = false → answer.2.1.sectorSize = g.sectorSize

theorem Asked.after {g g' : Geometry} {world world' : ω} {answer : Bool × Geometry × ω} (h : Asked log g' world' answer)
    (hlog : log world' = log world)
    (hsize : g'.sectorSize = g.sectorSize) : Asked log g world answer :=
  ⟨h.log.trans hlog, h.sized, fun hfailed => (h.sectorSize hfailed).trans hsize⟩

variable (drive) in
theorem getDiskinfoTotal_asked (hlogs : Unlogged fw log) (total : Nat) (g : Geometry) (world : ω) :
    Asked log g world (getDiskinfoTotal fw drive total g world) := by
  have hregisters := hlogs.registers world (unit drive)
  unfold getDiskinfoTotal getDiskinfoStandard
  generalize fw.registers world (unit drive) = result at hregisters ⊢
  obtain ⟨r, world'⟩ := result
  dsimp only
  split
  · exact ⟨hregisters, fun _ => .inl rfl, fun h => nomatch h⟩
  · exact ⟨hregisters, fun h => absurd h Bool.false_ne_true, fun _ => rfl⟩

variable (drive) in
theorem getCdinfo_log (hlogs : Unlogged fw log) (g : Geometry) (world : ω) :
    log (getCdinfo fw drive g world).2 = log world ∧ ∀ g' ∈ (getCdinfo fw drive g world).1, g'.Sized := by
  have hpacket := hlogs.specPacket world (unit drive)
  unfold getCdinfo
  generalize fw.specPacket world (unit drive) = result at hpacket ⊢
  obtain ⟨_ | cdrp, world'⟩ := result
  · exact ⟨hpacket, fun g' hg' => absurd hg' (Option.not_mem_none g')⟩
  dsimp only
  split
  · exact ⟨hpacket, fun g' hg' => absurd hg' (Option.not_mem_none g')⟩
  split
  · exact ⟨hpacket, fun g' hg' => Option.some.inj hg' ▸ .inr rfl⟩
  · exact ⟨hpacket, fun g' hg' => Option.some.inj hg' ▸ .inl rfl⟩

variable (drive) in
theorem getDiskinfoHard_asked (hlogs : Unlogged fw log) (version : Nat) (g : Geometry) (world : ω) :
    Asked log g world (getDiskinfoHard fw drive version g world) := by
  unfold getDiskinfoHard
  split
  · have hparameters := hlogs.driveParameters world (unit drive)
    generalize fw.driveParameters world (unit drive) = result at hparameters ⊢
    obtain ⟨_ | drp, world'⟩ := result
    · exact (getDiskinfoTotal_asked drive hlogs 0 g world').after hparameters rfl
    · exact (getDiskinfoTotal_asked drive hlogs drp.total { g with lbaExtension := true, cdrom := false } world').after hparameters rfl
  · exact getDiskinfoTotal_asked drive hlogs 0 g world

variable (drive) in
theorem getDiskinfo_asked (hlogs : Unlogged fw log) (g : Geometry) (world : ω) : Asked log g world (getDiskinfo fw drive g world) := by
  have hversion := hlogs.checkInt13Extensions world (unit drive)
  rcases hresult : fw.checkInt13Extensions world (unit drive) with ⟨version, world'⟩
  rw [hresult] at hversion
  simp only [getDiskinfo, hresult]
  split
  · split
    · obtain ⟨hlog, hsized⟩ := getCdinfo_log drive hlogs { g with lbaExtension := false, cdrom := false } world'
      generalize getCdinfo fw drive _ world' = result at hlog hsized ⊢
      obtain ⟨_ | g', world''⟩ := result
      · exact (getDiskinfoHard_asked drive hlogs version { g with lbaExtension := false, cdrom := false } world'').after
          (hlog.trans hversion) rfl
      · exact ⟨hlog.trans hversion, fun _ => hsized g' rfl, fun h => nomatch h⟩
    · exact (getDiskinfoHard_asked drive hlogs version { g with lbaExtension := false, cdrom := false } world').after hversion rfl
  · exact (getDiskinfoTotal_asked drive hlogs 0 { g with lbaExtension := false, cdrom := false } world).after rfl rfl

/-- The drive is selected. -/
theorem selectDrive_silent (hlogs : Unlogged fw log) (hkept : st.bufDrive = drive → st.bufGeom.Sized)
    (h : st.selectDrive fw drive = (true, st₁)) :
    log st₁.world = log st.world ∧ st₁.bufDrive = drive ∧ st₁.bufGeom.Sized := by
  unfold State.selectDrive at h
  split at h
  next heq =>
    cases h
    exact ⟨rfl, heq, hkept heq⟩
  next =>
    have hasked := getDiskinfo_asked drive hlogs st.bufGeom st.world
    generalize getDiskinfo fw drive st.bufGeom st.world = result at h hasked
    obtain ⟨done, g, world⟩ := result
    dsimp only at h
    split at h
    next hdone =>
      cases h
      exact ⟨hasked.log, rfl, hasked.sized hdone⟩
    next => cases h

end Silent

/-! ## The loop -/

section Loop
variable {hook : Hook ω} {log : ω → List Told} {drive : Int} {st st₁ st' : State ω} {rq rq' : Request} {out out' : List (BitVec 8)}

/-- The calls of a pass are told, in their order. -/
theorem told_log (hlogs : Logs fw hook log) (used : List Told) (st : State ω) :
    log (st.told (some hook) used).world = log st.world ++ used := by
  simp only [State.told]
  induction used generalizing st with
  | nil => exact (List.append_nil _).symm
  | cons call used ih =>
    rw [List.foldl_cons, ih (st.toldOne hook call)]
    show log (hook st.world call.1 call.2.1 call.2.2).2 ++ used = _
    rw [hlogs.hook, List.append_assoc]
    rfl

variable (fw) in
theorem unlogged_nothing : Unlogged fw fun _ => [] := ⟨fun _ _ _ _ _ => rfl, fun _ _ => rfl, fun _ _ => rfl, fun _ _ => rfl, fun _ _ => rfl⟩

/-- The drive and the size of its sectors stay. -/
abbrev State.KeepsDrive (st st' : State ω) : Prop := Silent (fun _ => []) st st'

theorem told_keeps (hook : Option (Hook ω)) (used : List Told) (st : State ω) : st.KeepsDrive (st.told hook used) := by
  cases hook with
  | none => exact .refl st
  | some hook =>
    simp only [State.told]
    induction used generalizing st with
    | nil => exact .refl st
    | cons call used ih =>
      obtain ⟨-, hdrive, hsize⟩ := ih (st.toldOne hook call)
      exact ⟨rfl, hdrive, hsize⟩

theorem delivered_silent (buf bufaddr : Int) (size : Nat) (st : State ω) : Silent log st (st.delivered buf bufaddr size).2 := by
  unfold State.delivered State.memcheck
  dsimp only
  split <;> split <;> exact ⟨rfl, rfl, rfl⟩

/-- What a pass comes to stays on its drive. -/
def Pass.KeepsDrive (st : State ω) : Pass ω → Prop
  | .fault => True
  | .refused st' => st.KeepsDrive st'
  | .next _ _ st' => st.KeepsDrive st'

variable (fw) in
theorem pass_keeps (hook : Option (Hook ω)) (drive : Int) (rq : Request) (st : State ω) : (st.pass fw hook drive rq).KeepsDrive st := by
  unfold State.pass
  dsimp only
  split
  · exact ⟨rfl, rfl, rfl⟩
  split
  · exact True.intro
  split
  · exact True.intro
  next bufaddr st₁ hfill =>
  have hfilled : st.KeepsDrive st₁ := fill_silent (unlogged_nothing fw) hfill
  split
  · exact True.intro
  · apply hfilled.trans
    apply (told_keeps hook _ st₁).trans
    apply delivered_silent

/-- The loop stays on its drive, once that is selected. -/
theorem rawreadLoop_keeps {hook : Option (Hook ω)} {fuel : Nat} {ok : Bool} (hdrive : st.bufDrive = drive)
    (h : rawreadLoop fw hook drive fuel rq out st = some (ok, out', st')) : st.KeepsDrive st' := by
  induction fuel generalizing rq out st with
  | zero => cases h
  | succ fuel ih =>
    rw [rawreadLoop] at h
    split at h
    · rw [State.selectDrive, if_pos hdrive] at h
      dsimp only at h
      rw [if_pos rfl] at h
      split at h
      · cases h
      next st₁ hpass =>
        have hkeeps := pass_keeps fw hook drive rq st
        rw [hpass] at hkeeps
        cases h
        exact hkeeps
      next rq₁ bytes st₁ hpass =>
        have hkeeps := pass_keeps fw hook drive rq st
        rw [hpass] at hkeeps
        exact hkeeps.trans (ih (hkeeps.bufDrive.trans hdrive) h)
    · cases h
      exact .refl _

/-- The bytes that a pass takes: what is wanted, as far as the end of the track at most. -/
def Geometry.piece (g : Geometry) (rq : Request) : Int :=
  min rq.byteLen (((g.sectorsPerVtrack - (rq.sector % g.sectorsPerVtrack).toNat) * g.sectorSize : Nat) - rq.byteOffset)

theorem Geometry.Sized.shiftLeft {g : Geometry} (h : g.Sized) (n : Nat) : n <<< log2 g.sectorSize = n * g.sectorSize := by
  rw [Nat.shiftLeft_eq]
  obtain h | h := h <;> rw [h] <;> rfl

theorem Geometry.Sized.shiftRight {g : Geometry} (h : g.Sized) (n : Nat) : n >>> log2 g.sectorSize = n / g.sectorSize := by
  rw [Nat.shiftRight_eq_div_pow]
  obtain h | h := h <;> rw [h] <;> rfl

theorem Geometry.Sized.of_eq {g g' : Geometry} (h : g.Sized) (heq : g'.sectorSize = g.sectorSize) : g'.Sized := by
  unfold Geometry.Sized
  rw [heq]
  exact h

theorem Geometry.Sized.pos {g : Geometry} (h : g.Sized) : 0 < g.sectorSize := by
  obtain h | h := h <;> rw [h] <;> decide

/-- A track is no longer than the buffer. -/
theorem Geometry.Sized.sectorsPerVtrack_le {g : Geometry} (h : g.Sized) : g.sectorsPerVtrack ≤ bufferLen := by
  have hpos := h.pos
  unfold Geometry.sectorsPerVtrack
  rw [h.shiftLeft, h.shiftRight]
  split
  · exact Nat.div_le_self ..
  next hfits => exact (Nat.le_mul_of_pos_right _ hpos).trans (Nat.le_of_not_lt hfits)

theorem Geometry.piece_pos {g : Geometry} (hvtrack : g.sectorsPerVtrack ≠ 0) (hhigh : rq.byteOffset < g.sectorSize)
    (hlen : 0 < rq.byteLen) :
    0 < g.piece rq := by
  have hsoff : (rq.sector % g.sectorsPerVtrack).toNat < g.sectorsPerVtrack := by
    have hmod := Int.emod_lt_of_pos rq.sector (show (0 : Int) < g.sectorsPerVtrack by omega)
    omega
  have hmany : 1 * g.sectorSize ≤ (g.sectorsPerVtrack - (rq.sector % g.sectorsPerVtrack).toNat) * g.sectorSize :=
    Nat.mul_le_mul_right _ (by omega)
  unfold Geometry.piece
  omega

/-- **A pass that goes on** has told the piece that it takes. -/
theorem pass_told (hlogs : Logs fw hook log) (hsized : st.bufGeom.Sized) (hhigh : rq.byteOffset < st.bufGeom.sectorSize)
    (hlen : 0 < rq.byteLen) {bytes : List (BitVec 8)} (h : st.pass fw (some hook) drive rq = .next rq' bytes st') :
    st.bufGeom.sectorsPerVtrack ≠ 0 ∧ 0 ≤ rq.sector ∧
      log st'.world = log st.world ++ sectorsUsed st.bufGeom.sectorSize rq (st.bufGeom.piece rq) ∧
      rq'.sector = Int.bmod (rq.sector + (st.bufGeom.sectorsPerVtrack - (rq.sector % st.bufGeom.sectorsPerVtrack).toNat : Nat)) (2 ^ 32) ∧
      rq'.byteOffset = 0 ∧ rq'.byteLen = rq.byteLen - st.bufGeom.piece rq := by
  unfold State.pass at h
  dsimp only at h
  split at h
  · cases h
  next hinside =>
  split at h
  · cases h
  next hvtrack =>
  split at h
  · cases h
  next bufaddr st₁ hfill =>
  have hsilent : Silent log st st₁ := fill_silent hlogs.unlogged hfill
  rw [hsized.shiftLeft] at h
  rw [show min rq.byteLen (((st.bufGeom.sectorsPerVtrack - (rq.sector % st.bufGeom.sectorsPerVtrack).toNat) * st.bufGeom.sectorSize : Nat) -
    rq.byteOffset) = st.bufGeom.piece rq from rfl] at h
  rw [if_neg (Int.not_lt.2 (Int.le_of_lt (Geometry.piece_pos hvtrack hhigh hlen)))] at h
  have htold := told_log hlogs (sectorsUsed st.bufGeom.sectorSize rq (st.bufGeom.piece rq)) st₁
  generalize st₁.told (some hook) (sectorsUsed st.bufGeom.sectorSize rq (st.bufGeom.piece rq)) = st₂ at h htold
  have hdelivered : Silent log st₂ _ := delivered_silent rq.buf bufaddr (st.bufGeom.piece rq).toNat st₂
  injection h with hrq hbytes hstate
  rw [hstate] at hdelivered
  subst hrq
  refine ⟨hvtrack, ?_, ?_, rfl, rfl, rfl⟩
  · unfold Geometry.outside at hinside
    omega
  · rw [hdelivered.log, htold, hsilent.log]

/-- Where the next track starts. -/
theorem next_sector {sector n : Int} (hlow : 0 ≤ sector) (hn : 0 ≤ n ∧ n ≤ bufferLen) (hhigh : sector < 2 ^ 31)
    (hvalid : 0 ≤ Int.bmod (sector + n) (2 ^ 32)) : Int.bmod (sector + n) (2 ^ 32) = sector + n := by
  have hlen : (bufferLen : Int) < 2 ^ 31 := by decide
  rw [Int.bmod_def] at hvalid ⊢
  split at hvalid
  next hsmall =>
    rw [if_pos hsmall]
    omega
  next hlarge => omega

/-- **The loop** tells what it is asked for. -/
theorem rawreadLoop_told (hlogs : Logs fw hook log) {fuel : Nat} (hkept : st.bufDrive = drive → st.bufGeom.Sized)
    (h : rawreadLoop fw (some hook) drive fuel rq out st = some (true, out', st')) (hsector : rq.sector < 2 ^ 31) (hlow : 0 ≤ rq.byteOffset)
    (hhigh : rq.byteOffset < st'.bufGeom.sectorSize) (hlen : 0 < rq.byteLen) :
    0 ≤ rq.sector ∧ ∃ calls, log st'.world = log st.world ++ calls ∧
      Covers st'.bufGeom.sectorSize (rq.sector * st'.bufGeom.sectorSize + rq.byteOffset)
        (rq.sector * st'.bufGeom.sectorSize + rq.byteOffset + rq.byteLen) calls := by
  induction fuel generalizing rq out st with
  | zero => cases h
  | succ fuel ih =>
    rw [rawreadLoop] at h
    split at h
    next hgo =>
      generalize hselect : st.selectDrive fw drive = selected at h
      obtain ⟨_ | _, st₁⟩ := selected
      · cases h
      obtain ⟨hlog₁, hdrive₁, hsized₁⟩ := selectDrive_silent hlogs.unlogged hkept hselect
      dsimp only at h
      rw [if_pos rfl] at h
      split at h
      · cases h
      · cases h
      next rq₂ bytes st₂ hpass =>
      have hkeeps := pass_keeps fw (some hook) drive rq st₁
      rw [hpass] at hkeeps
      have hdrive₂ : st₂.bufDrive = drive := hkeeps.bufDrive.trans hdrive₁
      have hsize : st'.bufGeom.sectorSize = st₁.bufGeom.sectorSize := (rawreadLoop_keeps hdrive₂ h).sectorSize.trans hkeeps.sectorSize
      rw [hsize] at hhigh ⊢
      obtain ⟨hvtrack, hnonneg, hlog₂, hsector₂, hoffset₂, hlen₂⟩ := pass_told hlogs hsized₁ hhigh hlen hpass
      have hpiece := sectorsUsed_covers hlow hhigh (Geometry.piece_pos hvtrack hhigh hlen)
      refine ⟨hnonneg, ?_⟩
      by_cases hmore : 0 < rq₂.byteLen
      · -- The piece ends with the track, and the next sector starts there.
        have hpiece_eq : st₁.bufGeom.piece rq =
            ((st₁.bufGeom.sectorsPerVtrack - (rq.sector % st₁.bufGeom.sectorsPerVtrack).toNat : Nat) : Int) * st₁.bufGeom.sectorSize -
              rq.byteOffset := by
          have hcast :=
            Int.natCast_mul (st₁.bufGeom.sectorsPerVtrack - (rq.sector % st₁.bufGeom.sectorsPerVtrack).toNat) st₁.bufGeom.sectorSize
          rw [← hcast]
          rw [hlen₂] at hmore
          unfold Geometry.piece at hmore ⊢
          omega
        have hbound : rq₂.sector < 2 ^ 31 := by
          rw [hsector₂]
          exact Int.bmod_lt (by decide)
        have hstart : rq₂.byteOffset < st'.bufGeom.sectorSize := by
          rw [hoffset₂, hsize]
          exact Int.natCast_pos.2 hsized₁.pos
        obtain ⟨hnonneg₂, calls, hlog', hcovers⟩ :=
          ih (fun _ => hsized₁.of_eq hkeeps.sectorSize) h hbound (Int.le_of_eq hoffset₂.symm) hstart hmore
        refine ⟨sectorsUsed st₁.bufGeom.sectorSize rq (st₁.bufGeom.piece rq) ++ calls, ?_, ?_⟩
        · rw [hlog', hlog₂, hlog₁, List.append_assoc]
        · rw [hsector₂] at hnonneg₂
          have hnext :=
            next_sector hnonneg ⟨Int.natCast_nonneg _, Int.ofNat_le.2 ((Nat.sub_le ..).trans hsized₁.sectorsPerVtrack_le)⟩ hsector hnonneg₂
          rw [hsector₂, hnext, hoffset₂, hlen₂, hsize] at hcovers
          refine hpiece.append ?_
          convert hcovers using 1
          · rw [hpiece_eq]; ring
          · rw [hpiece_eq]; ring
      · -- All of it is told.
        have hall : st₁.bufGeom.piece rq = rq.byteLen := by
          rw [hlen₂] at hmore
          unfold Geometry.piece at hmore ⊢
          omega
        have hdone : st' = st₂ := by
          cases fuel with
          | zero => cases h
          | succ fuel =>
            rw [rawreadLoop, if_neg fun hgo => hmore hgo.1] at h
            exact (Prod.mk.inj (Prod.mk.inj (Option.some.inj h)).2).2.symm
        refine ⟨sectorsUsed st₁.bufGeom.sectorSize rq (st₁.bufGeom.piece rq), ?_, hall ▸ hpiece⟩
        rw [hdone, hlog₂, hlog₁]
    next hstop =>
      have hclear := (Prod.mk.inj (Option.some.inj h)).1
      exact absurd ⟨hlen, of_decide_eq_true hclear⟩ hstop

end Loop

/-! ## Runs -/

section Runs
variable {drive : Int} {st st₁ st' : State ω}

/-- The drive of the buffer, once there is one, has sectors of a known size. -/
def State.Selected (st : State ω) : Prop := st.bufDrive = -1 ∨ st.bufGeom.Sized

theorem State.Selected.silent {log : ω → List Told} (h : st.Selected) (hsilent : Silent log st st') : st'.Selected :=
  h.imp hsilent.bufDrive.trans fun hsized => hsized.of_eq hsilent.sectorSize

theorem State.Selected.selectDrive (fw : Firmware ω) (drive : Int) (h : st.Selected) : (st.selectDrive fw drive).2.Selected := by
  unfold State.selectDrive
  split
  · exact h
  · have hasked := getDiskinfo_asked drive (unlogged_nothing fw) st.bufGeom st.world
    generalize getDiskinfo fw drive st.bufGeom st.world = result at hasked ⊢
    obtain ⟨done, g, world⟩ := result
    dsimp only
    split
    next hdone => exact .inr (hasked.sized hdone)
    next hfailed => exact h.imp id fun hsized => hsized.of_eq (hasked.sectorSize (Bool.eq_false_iff.2 hfailed))

theorem rawreadLoop_selected {hook : Option (Hook ω)} {fuel : Nat} {rq : Request} {ok : Bool} {out out' : List (BitVec 8)}
    (hselected : st.Selected)
    (h : rawreadLoop fw hook drive fuel rq out st = some (ok, out', st')) : st'.Selected := by
  induction fuel generalizing rq out st with
  | zero => cases h
  | succ fuel ih =>
    rw [rawreadLoop] at h
    split at h
    · have hselected₁ := hselected.selectDrive fw drive
      generalize st.selectDrive fw drive = selected at h hselected₁
      obtain ⟨_ | _, st₁⟩ := selected
      · cases h
        exact hselected₁
      dsimp only at h
      rw [if_pos rfl] at h
      have hkeeps := pass_keeps fw hook drive rq st₁
      split at h
      · cases h
      next st₂ hpass =>
        rw [hpass] at hkeeps
        cases h
        exact hselected₁.silent hkeeps
      next rq₂ bytes st₂ hpass =>
        rw [hpass] at hkeeps
        exact ih (hselected₁.silent hkeeps) h
    · cases h
      exact hselected

theorem writeSector_selected {sector : Int} {buf : Partition.Buffer} {ok : Bool} (hselected : st.Selected)
    (h : st.writeSector fw drive sector buf = some (ok, st')) : st'.Selected := by
  unfold State.writeSector at h
  generalize hwrite : biosdisk fw .write drive sector 1 scratchAddr _ = write at h
  obtain _ | ⟨err, st₁⟩ := write
  · cases h
  have hmoved : st.KeepsDrive (st.memmove scratchAddr (Memory.slice buf 0 Disk.sectorSize)) := memmove_silent ..
  have hselected₁ := (hselected.silent hmoved).silent (biosdisk_silent (unlogged_nothing fw) hwrite)
  dsimp only at h
  split at h
  · cases h
    exact hselected₁
  split at h
  · cases h
  split at h
  · cases h
    exact hselected₁
  · cases h
    exact hselected₁

theorem rawwrite_selected {sector : Int} {buf : Partition.Buffer} {ok : Bool} (hselected : st.Selected)
    (h : rawwrite fw drive sector buf st = some (ok, st')) : st'.Selected := by
  unfold rawwrite at h
  split at h
  · generalize hread : biosdisk fw .read drive 0 1 scratchAddr st = read at h
    obtain _ | ⟨err, st₁⟩ := read
    · cases h
    have hselected₁ := hselected.silent (biosdisk_silent (unlogged_nothing fw) hread)
    dsimp only at h
    split at h
    · cases h
      exact hselected₁
    · exact writeSector_selected hselected₁ h
  · exact writeSector_selected hselected h

/-- One call keeps the drive selected. -/
theorem Call.run_selected {call : Call ω} {answer : Answer} (hselected : st.Selected) (h : call.run fw st = some (answer, st')) :
    st'.Selected := by
  cases call with
  | rawread hook drive sector byteOffset byteLen buf =>
    obtain ⟨⟨ok, bytes, st₁⟩, hread, heq⟩ := Option.map_eq_some_iff.1 h
    cases heq
    unfold Drive.rawread at hread
    split at hread
    · cases hread
      exact hselected
    · exact rawreadLoop_selected hselected hread
  | rawwrite drive sector buf =>
    obtain ⟨⟨ok, st₁⟩, hwrite, heq⟩ := Option.map_eq_some_iff.1 h
    cases heq
    exact rawwrite_selected hselected hwrite
  | setErrnum e =>
    cases h
    exact hselected

/-- The drive stays selected over a run. -/
theorem run_selected {st₀ : State ω} (h₀ : st₀.Unused) (hrun : Relation.ReflTransGen (Step fw fun _ _ => True) st₀ st) : st.Selected := by
  induction hrun with
  | refl => exact .inl h₀.bufDrive
  | tail _ hstep ih =>
    obtain ⟨call, answer, -, h⟩ := hstep
    exact call.run_selected ih h

/-- **Sector instrumentation.** A read that succeeds tells `disk_read_func` the bytes that were asked
for, piece by piece: in every state in which the drive of the buffer has sectors of a known size, and
the states that runs reach are such. -/
theorem rawread_told {hook : Hook ω} {log : ω → List Told} (hlogs : Logs fw hook log) :
    (∀ (st : State ω) drive rq out st', st.Selected → drive ≠ -1 → rawread fw (some hook) drive rq st = some (true, out, st') →
      rq.sector < 2 ^ 31 → 0 ≤ rq.byteOffset → rq.byteOffset < st'.bufGeom.sectorSize →
      ∃ calls, log st'.world = log st.world ++ calls ∧
        Covers st'.bufGeom.sectorSize (rq.sector * st'.bufGeom.sectorSize + rq.byteOffset)
          (rq.sector * st'.bufGeom.sectorSize + rq.byteOffset + max rq.byteLen 0) calls) ∧
      ∀ st₀ st : State ω, st₀.Unused → Relation.ReflTransGen (Step fw fun _ _ => True) st₀ st → st.Selected := by
  refine ⟨fun st drive rq out st' hselected hdrive h hsector hlow hhigh => ?_, fun st₀ st h₀ hrun => run_selected h₀ hrun⟩
  have hkept : st.bufDrive = drive → st.bufGeom.Sized := fun heq => hselected.resolve_left fun hnone => hdrive (heq.symm.trans hnone)
  unfold rawread at h
  split at h
  next hnothing =>
    cases h
    exact ⟨[], (List.append_nil _).symm, by rw [max_eq_right hnothing, Int.add_zero]; rfl⟩
  next hlen =>
    rw [max_eq_left (Int.le_of_lt (Int.not_le.1 hlen))]
    exact (rawreadLoop_told hlogs hkept h hsector hlow hhigh (Int.not_le.1 hlen)).2

end Runs

/-! ## A log for any firmware -/

/-- The firmware with a log beside its world. -/
def Firmware.logged (fw : Firmware ω) : Firmware (ω × List Told) where
  sectorBytes := fw.sectorBytes
  heads := fw.heads
  sectors := fw.sectors
  transfer world op unit address nsec := let (status, rest) := fw.transfer world.1 op unit address nsec; (status, rest, world.2)
  leftover world := fw.leftover world.1
  checkInt13Extensions world unit := let (version, rest) := fw.checkInt13Extensions world.1 unit; (version, rest, world.2)
  specPacket world unit := let (cdrp, rest) := fw.specPacket world.1 unit; (cdrp, rest, world.2)
  driveParameters world unit := let (drp, rest) := fw.driveParameters world.1 unit; (drp, rest, world.2)
  registers world unit := let (r, rest) := fw.registers world.1 unit; (r, rest, world.2)

/-- The hook with a log of its calls. -/
def Hook.logged (hook : Hook ω) : Hook (ω × List Told) := fun world sector offset length =>
  let (e, rest) := hook world.1 sector offset length
  (e, rest, world.2 ++ [(sector, offset, length)])

theorem logged_logs (fw : Firmware ω) (hook : Hook ω) : Logs fw.logged hook.logged Prod.snd where
  unlogged := ⟨fun _ _ _ _ _ => rfl, fun _ _ => rfl, fun _ _ => rfl, fun _ _ => rfl, fun _ _ => rfl⟩
  hook _ _ _ _ := rfl

/-- The floppy of two tracks, with a log. -/
def loggedOn : State (Unit × List Told) where
  bufDrive := -1
  bufTrack := 0
  bufGeom := .zero
  mem _ := 0
  errnum := .none
  memLower := 640
  memUpper := 0
  disk _ i := BitVec.ofNat 8 (i / 512)
  world := ((), [])

/-- A read that goes on behind the end of the first track. -/
def acrossTracks : Request := ⟨1, 100, 1000, 0x8000⟩

def quietHook : Hook Unit := fun _ _ _ _ => (.none, ())

theorem rawread_told_acrossTracks :
    ∃ out st', rawread twoTracks.logged (some quietHook.logged) 0 acrossTracks loggedOn = some (true, out, st') ∧
    ∃ calls, st'.world.2 = calls ∧ Covers 512 612 1612 calls := by
  have hruns : (rawread twoTracks.logged (some quietHook.logged) 0 acrossTracks loggedOn).map
      (fun result => (result.1, result.2.2.bufGeom.sectorSize)) = some (true, 512) := by decide +kernel
  obtain ⟨⟨ok, out, st'⟩, hrun, hresult⟩ := Option.map_eq_some_iff.1 hruns
  obtain ⟨rfl, hsize⟩ := Prod.mk.inj hresult
  dsimp only at hsize
  obtain ⟨calls, hlog, hcovers⟩ :=
    (rawread_told (logged_logs twoTracks quietHook)).1 loggedOn 0 acrossTracks out st' (.inl rfl) (by decide) hrun
    (by decide) (by decide) (by rw [hsize]; decide)
  rw [hsize] at hcovers
  exact ⟨out, st', hrun, calls, hlog, hcovers⟩

end TrustedGrub.Drive
