import TrustedGrub.Disk.Open

/-!
# What a read leaves alone

Whatever the devices do, a `grub_read` changes the position, the measurement, the
state of the decompressor and of the devices, and `errnum`. The rest of the globals,
collected in `Settings`, is as before: so every read path is checked once, here.
-/

namespace TrustedGrub.Disk
open Fips180 (Byte Word Words)

variable {σ ι : Type} {p : Platform σ ι}

/-- The globals that reading never changes. -/
structure Settings where
  performSha1 : Bool
  oldPerformSha1Value : Bool
  measureKernel : Bool
  noDecompression : Bool
  compressedFile : Bool
  blockFile : Bool
  mounted : Bool
  filemax : Int
  fsmax : Int
  kernelFilesize : Int
  kernelCompressedFilesize : Int
  kernelRealAddr : Nat
  gzipDataOffset : Int
  gzipFilemax : Int
  gzipFsmax : Int
  part : Nat → Byte
  file : File
  mem : Nat → Byte
  memLower : Nat
  memUpper : Nat
  links : List Nat
  events : List Event

def State.settings (st : State σ ι) : Settings where
  performSha1 := st.performSha1
  oldPerformSha1Value := st.oldPerformSha1Value
  measureKernel := st.measureKernel
  noDecompression := st.noDecompression
  compressedFile := st.compressedFile
  blockFile := st.blockFile
  mounted := st.mounted
  filemax := st.filemax
  fsmax := st.fsmax
  kernelFilesize := st.kernelFilesize
  kernelCompressedFilesize := st.kernelCompressedFilesize
  kernelRealAddr := st.kernelRealAddr
  gzipDataOffset := st.gzip.dataOffset
  gzipFilemax := st.gzip.filemax
  gzipFsmax := st.gzip.fsmax
  part := st.part
  file := st.file
  mem := st.mem
  memLower := st.memLower
  memUpper := st.memUpper
  links := st.links
  events := st.events

/-- A reader keeps the settings. -/
def Keeps (read : Reader σ ι) : Prop := ∀ st buf len, (read st buf len).2.2.settings = st.settings

theorem noRead_keeps : Keeps (noRead : Reader σ ι) := fun _ _ _ => rfl

theorem driverRead_keeps : Keeps (driverRead p) := by
  intro st buf len
  simp only [driverRead]
  generalize p.readFunc st.driver _ = answer
  obtain ⟨_ | fault, driver⟩ := answer <;> rfl

theorem blockLoop_keeps {buf : Dest} (fuel : Nat) : ∀ {off len : Nat} {bytes : Nat → Byte} {st : State σ ι},
    (blockLoop p buf fuel off len (bytes, st)).2.settings = st.settings := by
  induction fuel with
  | zero => intros; rfl
  | succ fuel ih =>
    intro off len bytes st
    simp only [blockLoop]
    split
    · rw [ih]
      generalize p.devread st.driver _ = answer
      obtain ⟨_ | fault, driver⟩ := answer <;> rfl
    · rfl

theorem getByte_keeps {read : Reader σ ι} (hr : Keeps read) (st : State σ ι) : (getByte read st).2.settings = st.settings := by
  simp only [getByte]
  split
  · exact hr _ _ _
  · rfl

theorem runInflate_keeps {read : Reader σ ι} (hr : Keeps read) (t : Inflating ι) : ∀ st : State σ ι,
    (runInflate read t st).settings = st.settings := by
  induction t with
  | getByte next ih => intro st; simp only [runInflate]; rw [ih, getByte_keeps hr]
  | window state bad => intro st; rfl
  | abandoned state => intro st; rfl

theorem inflateTo_keeps {read : Reader σ ι} (hr : Keeps read) (fuel : Nat) : ∀ st : State σ ι,
    (inflateTo p read fuel st).settings = st.settings := by
  induction fuel with
  | zero => intro st; rfl
  | succ fuel ih =>
    intro st
    simp only [inflateTo]
    split
    · rw [ih, inflateWindow]
      split
      · exact runInflate_keeps hr _ st
      · rfl
    · rfl

theorem gunzipLoop_keeps {read : Reader σ ι} (hr : Keeps read) (buf : Dest) (fuel : Nat) :
    ∀ (off len : Nat) (bytes : Nat → Byte) (st : State σ ι),
      (gunzipLoop p read buf fuel off len (bytes, st)).2.settings = st.settings := by
  induction fuel with
  | zero => intros; rfl
  | succ fuel ih =>
    intro off len bytes st
    simp only [gunzipLoop]
    split
    · rw [ih]
      exact inflateTo_keeps hr _ st
    · rfl

theorem entered_settings (st : State σ ι) : (st.gunzipEntered p).settings =
    { st.settings with
      compressedFile := false
      filemax := st.gzip.filemax
      fsmax := st.gzip.fsmax
      gzipFilemax := st.filemax
      gzipFsmax := st.fsmax } := by
  simp only [State.gunzipEntered]
  split <;> rfl

theorem left_settings (st : State σ ι) : st.gunzipLeft.settings =
    { st.settings with
      compressedFile := true
      filemax := st.settings.gzipFilemax
      fsmax := st.settings.gzipFsmax
      gzipFilemax := st.settings.filemax
      gzipFsmax := st.settings.fsmax } := rfl

/-- `gunzip_read` swaps the sizes back. -/
theorem gunzipRead_keeps {read : Reader σ ι} (hr : Keeps read) {st : State σ ι} (hc : st.compressedFile = true) (buf : Dest)
    (len : Int) : (gunzipRead p read st buf len).2.2.settings = st.settings := by
  simp only [gunzipRead, left_settings, gunzipLoop_keeps hr, entered_settings]
  simp only [State.settings, hc]

theorem fileRead_keeps {read : Reader σ ι} (hr : Keeps read) : Keeps (fileRead p read) := by
  intro st buf len
  simp only [fileRead]
  split
  next hc => exact gunzipRead_keeps hr hc buf len
  next hc =>
    split
    · exact blockLoop_keeps _
    · split
      · have := driverRead_keeps (p := p) st buf len
        simp only
        split
        · exact this
        · exact this
      · rfl

theorem measureSkipped_keeps {read : Reader σ ι} (hr : Keeps read) (st : State σ ι) :
    (measureSkipped read st).settings = st.settings := by
  simp only [measureSkipped]
  split
  next hc =>
    have h := hr st.rewound (.local fun _ => 0) st.filepos
    have hresumed (s : State σ ι) : s.resumed.settings = { s.settings with performSha1 := true } := rfl
    have hhashed (s : State σ ι) (bytes : List Byte) (n : Int) : (s.hashed bytes n).settings = s.settings := rfl
    rw [hhashed, hresumed, h]
    simp only [State.settings, State.rewound, hc.1]
  next hc => rfl

theorem grubReadWith_keeps {read : Reader σ ι} (hr : Keeps read) : Keeps (grubReadWith p read) := by
  intro st buf len
  simp only [grubReadWith]
  split
  · rfl
  · split
    · rfl
    · rw [fileRead_keeps hr, measureSkipped_keeps hr]
      rfl

/-- **A read keeps the settings**, on every path and whatever goes wrong. -/
theorem grubRead_keeps : Keeps (grubRead p) :=
  grubReadWith_keeps (grubReadWith_keeps (grubReadWith_keeps noRead_keeps))

/-! ## What opening leaves alone -/

/-- The flags of the commands, and the log. -/
structure SameFlags (s st : State σ ι) : Prop where
  performSha1 : s.performSha1 = st.performSha1
  oldPerformSha1Value : s.oldPerformSha1Value = st.oldPerformSha1Value
  measureKernel : s.measureKernel = st.measureKernel
  noDecompression : s.noDecompression = st.noDecompression
  events : s.events = st.events

theorem SameFlags.refl (st : State σ ι) : SameFlags st st := ⟨rfl, rfl, rfl, rfl, rfl⟩

theorem SameFlags.trans {r s t : State σ ι} (h : SameFlags r s) (h' : SameFlags s t) : SameFlags r t :=
  ⟨h.performSha1.trans h'.performSha1, h.oldPerformSha1Value.trans h'.oldPerformSha1Value,
    h.measureKernel.trans h'.measureKernel, h.noDecompression.trans h'.noDecompression, h.events.trans h'.events⟩

theorem SameFlags.of_settings {s st : State σ ι} (h : s.settings = st.settings) : SameFlags s st :=
  ⟨congrArg Settings.performSha1 h, congrArg Settings.oldPerformSha1Value h, congrArg Settings.measureKernel h,
    congrArg Settings.noDecompression h, congrArg Settings.events h⟩

theorem atStart_flags (st : State σ ι) : SameFlags st.atStart st := ⟨rfl, rfl, rfl, rfl, rfl⟩

theorem atTrailer_flags (st : State σ ι) : SameFlags st.atTrailer st := ⟨rfl, rfl, rfl, rfl, rfl⟩

theorem badGzipHeader_flags (st : State σ ι) : SameFlags st.badGzipHeader st := ⟨rfl, rfl, rfl, rfl, rfl⟩

theorem unpacking_flags (st : State σ ι) (size : Int) : SameFlags (st.unpacking p size) st := ⟨rfl, rfl, rfl, rfl, rfl⟩

theorem onLink_flags (st : State σ ι) (link : File) (driver : σ) : SameFlags (st.onLink link driver) st :=
  ⟨rfl, rfl, rfl, rfl, rfl⟩

theorem read_flags (st : State σ ι) (buf : Dest) (len : Int) : SameFlags (grubRead p st buf len).2.2 st :=
  .of_settings (grubRead_keeps st buf len)

theorem readTo_flags (st : State σ ι) (addr : Nat) (len : Int) : SameFlags (grubReadTo p st addr len).2 st :=
  let h := read_flags (p := p) st (st.physical addr) len
  ⟨h.performSha1, h.oldPerformSha1Value, h.measureKernel, h.noDecompression, h.events⟩

theorem badField_flags (fuel : Nat) : ∀ (len : Int) (ch : Byte) (st : State σ ι), SameFlags (badField p fuel len ch st).2 st := by
  induction fuel with
  | zero => intro len ch st; exact .refl st
  | succ fuel ih =>
    intro len ch st
    simp only [badField]
    by_cases hend : if 0 ≤ len then len = 0 else ch = 0
    · rw [if_pos hend]
      exact .refl st
    rw [if_neg hend]
    have hread := read_flags (p := p) st (.local fun _ => ch) 1
    split
    · exact (ih _ _ _).trans hread
    · exact hread

theorem badExtra_flags (buf : Nat → Byte) (st : State σ ι) : SameFlags (badExtra p buf st).2 st := by
  simp only [badExtra]
  split
  · exact .refl st
  · split
    · have hread := read_flags (p := p) st (.local buf) 2
      split
      · exact hread
      · exact (badField_flags _ _ _ _).trans hread
    · exact .refl st

theorem badString_flags (flag : Byte) (st : State σ ι) : SameFlags (badString p flag st).2 st := by
  simp only [badString]
  split
  · exact badField_flags _ _ _ _
  · exact .refl st

theorem badHeader_flags (buf : Nat → Byte) (st : State σ ι) : SameFlags (badHeader p buf st).2 st := by
  simp only [badHeader]
  have hextra := badExtra_flags (p := p) buf st
  split
  · exact hextra
  · have hname := (badString_flags (p := p) (buf 3 &&& 0x08) (badExtra p buf st).2).trans hextra
    split
    · exact hname
    · exact (badString_flags _ _).trans hname

theorem trailer_flags (st : State σ ι) : SameFlags (gunzipTrailer p st).2 st := by
  simp only [gunzipTrailer]
  have hread := (read_flags (p := p) st.atTrailer (.local fun _ => 0) 8).trans (atTrailer_flags st)
  split
  · exact (badGzipHeader_flags _).trans hread
  · exact (unpacking_flags _ _).trans hread

theorem testHeader_flags (st : State σ ι) : SameFlags (gunzipTestHeader p st).2 st := by
  simp only [gunzipTestHeader]
  split
  · exact ⟨rfl, rfl, rfl, rfl, rfl⟩
  · have hread := read_flags (p := p) st (.local fun _ => 0) 10
    split
    · exact (atStart_flags _).trans hread
    · have hheader := (badHeader_flags (p := p) (grubRead p st (.local fun _ => 0) 10).2.1 _).trans hread
      split
      · exact (badGzipHeader_flags _).trans hheader
      · exact (trailer_flags _).trans hheader

theorem runWalk_flags (walk : DirWalk σ) : ∀ st : State σ ι, SameFlags (runWalk p walk st).2 st := by
  induction walk with
  | opened file fsmax driver => intro st; exact ⟨rfl, rfl, rfl, rfl, rfl⟩
  | failed errnum filepos filemax driver => intro st; exact ⟨rfl, rfl, rfl, rfl, rfl⟩
  | readLink link linkbuf driver next ih =>
    intro st
    have hread := read_flags (p := p) (st.onLink link driver) (.local linkbuf) link.bytes.length
    exact (ih _ _ _ _).trans ((atStart_flags _).trans (hread.trans (onLink_flags st link driver)))

theorem walked_flags {walk : DirWalk σ} {w s : State σ ι} (h : runWalk p walk w = (true, s)) : SameFlags s w := by
  have hwalk := runWalk_flags (p := p) walk w
  rwa [h] at hwalk

theorem copyKernel_flags {st : State σ ι} (hm : st.measureKernel = true) : SameFlags (copyKernel p st) st :=
  let h := readTo_flags (p := p) st.copyPrepared st.copyPrepared.kernelRealAddr st.copyPrepared.copyLength
  ⟨h.performSha1, h.oldPerformSha1Value, hm.symm, h.noDecompression, h.events⟩

theorem openMeasured_flags (st : State σ ι) : SameFlags (openMeasured p st).2 st := by
  simp only [openMeasured]
  split
  next hp =>
    have htest := testHeader_flags (p := p) st.probing
    have hprobed : SameFlags ((gunzipTestHeader p st.probing).2.probed st.measureKernel) st :=
      ⟨hp.symm, htest.oldPerformSha1Value, rfl, htest.noDecompression, htest.events⟩
    split
    next hm => exact (copyKernel_flags (hprobed.measureKernel.trans hm)).trans hprobed
    next hm => exact hprobed
  next hp => exact testHeader_flags st

theorem restarted_flags (st : State σ ι) : SameFlags st.restarted st := ⟨rfl, rfl, rfl, rfl, rfl⟩

theorem refused_flags (st : State σ ι) (errnum : GrubError) (driver : σ) : SameFlags (st.refused errnum driver) st :=
  ⟨rfl, rfl, rfl, rfl, rfl⟩

theorem chosen_flags (st : State σ ι) (part : Nat → Byte) (mounted : Bool) (errnum : GrubError) (driver : σ) :
    SameFlags (st.chosen part mounted errnum driver) st := ⟨rfl, rfl, rfl, rfl, rfl⟩

theorem named_flags (st : State σ ι) (name : BlockName) : SameFlags (st.named name) st := ⟨rfl, rfl, rfl, rfl, rfl⟩

theorem onBlocks_flags (st : State σ ι) (list : List (Nat × Nat)) : SameFlags (st.onBlocks list) st :=
  ⟨rfl, rfl, rfl, rfl, rfl⟩

/-- The state at the end of a pass. -/
def Pass.state : Pass σ ι → State σ ι
  | .returned _ st => st
  | .retry st => st

theorem openPath_flags (st : State σ ι) (filename : List Byte) : SameFlags (openPath p st filename).state st := by
  simp only [openPath]
  split
  · exact .refl st
  · split
    · have hwalk := runWalk_flags (p := p) (p.dirFunc filename st.driver) st
      split
      · exact (openMeasured_flags _).trans hwalk
      · exact hwalk
    · exact ⟨rfl, rfl, rfl, rfl, rfl⟩

theorem openName_flags (st : State σ ι) (filename : List Byte) : SameFlags (openName p st filename).state st := by
  have hstart := restarted_flags st
  simp only [openName]
  cases p.setupPart filename st.restarted.driver with
  | refused errnum driver =>
    have hrefused := (refused_flags _ errnum driver).trans hstart
    simp only
    split <;> exact hrefused
  | chosen filename part mounted errnum driver =>
    have hchosen := (chosen_flags _ part mounted errnum driver).trans hstart
    simp only
    split
    · exact (openPath_flags _ _).trans hchosen
    · have hnamed := (named_flags _ (blockName filename.chars)).trans hchosen
      split
      · exact (testHeader_flags _).trans ((onBlocks_flags _ _).trans hnamed)
      · exact (openPath_flags _ _).trans hnamed

theorem openPasses_flags (filename : FileName) (trials : List (List Byte)) : ∀ (held : List Byte) (st : State σ ι),
    SameFlags (openPasses p filename trials held st).2 st := by
  induction trials with
  | nil => intro _ st; exact .refl st
  | cons trial trials ih =>
    intro held st
    have hpass := openName_flags (p := p) st (filename.alternative (filename.held st held) trial)
    simp only [openPasses]
    cases hn : openName p st (filename.alternative (filename.held st held) trial) with
    | returned result s => rw [hn] at hpass; exact hpass
    | retry s => rw [hn] at hpass; exact (ih _ s).trans hpass

/-- **Opening keeps the flags**, whether or not it succeeds. -/
theorem grubOpen_flags (st : State σ ι) (filename : FileName) : SameFlags (grubOpen p st filename).2 st := by
  have hpass := openName_flags (p := p) st (filename.held st (p.fn st.driver))
  simp only [grubOpen]
  cases hn : openName p st (filename.held st (p.fn st.driver)) with
  | returned result s => rw [hn] at hpass; exact hpass
  | retry s => rw [hn] at hpass; exact (openPasses_flags _ _ _ s).trans hpass

end TrustedGrub.Disk
