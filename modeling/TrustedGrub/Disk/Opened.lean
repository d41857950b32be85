import TrustedGrub.Disk.Faults
import TrustedGrub.Disk.RawRead

/-!
# What opening a file leaves

On a platform whose devices work, `gunzip_test_header` is a sequence of reads and
seeks of the stored file, after which the file is plain or compressed, and a
successful `grub_open` leaves one of the two. `Reads` is such a sequence; every
invariant of a read carries over to it.
-/

namespace TrustedGrub.Disk
open Fips180 (Byte Word Words)

variable {σ ι : Type} {p : Platform σ ι} {F : List Byte}

/-- A read that goes well stays within what the driver can reach. -/
theorem RawOpen.reaches {read : Reader σ ι} {st : State σ ι} (h : RawOpen st F) {buf : Dest} {len : Int}
    (hf : (grubReadWith p read st buf len).2.2.faulted = false) : st.Reaches F len := by
  have haim : st.aimed.filepos = st.startOf := h.start.1
  simp only [grubReadWith, h.saneLen] at hf
  rw [if_neg (by simp [State.aimed, h.measureKernel])] at hf
  by_contra hover
  rw [if_pos (by rw [haim]; simp only [State.Reaches, State.aimed] at hover ⊢; omega)] at hf
  cases hf

/-- A read that goes well leaves the file open. -/
theorem RawOpen.read (hp : p.Healthy) {st : State σ ι} (h : RawOpen st F) (read : Reader σ ι) (buf : Dest) {len : Int}
    (hreach : st.Reaches F len) : RawOpen (grubReadWith p (grubReadWith p read) st buf len).2.2 F := by
  obtain ⟨driver, blocks, heq, hhold⟩ := raw_read hp read h buf hreach
  rw [heq]
  exact ((h.aimed.served hhold _ _).skipped _ _).measured _ _ _

/-- A sequence of reads into local arrays, and of seeks. -/
inductive Reads (p : Platform σ ι) : State σ ι → State σ ι → Prop where
  | refl (st : State σ ι) : Reads p st st
  | read {st s : State σ ι} (h : Reads p st s) (bytes : Nat → Byte) (len : Int) : Reads p st (grubRead p s (.local bytes) len).2.2
  | seek {st s : State σ ι} (h : Reads p st s) (offset : Int) : Reads p st { s with filepos := offset }

theorem Reads.trans {st s t : State σ ι} (h : Reads p st s) (h' : Reads p s t) : Reads p st t := by
  induction h' with
  | refl => exact h
  | read _ bytes len ih => exact ih.read bytes len
  | seek _ offset ih => exact ih.seek offset

theorem RawOpen.seek {st : State σ ι} (h : RawOpen st F) (offset : Int) : RawOpen { st with filepos := offset } F :=
  ⟨⟨h.measureKernel, h.compressedFile, h.filemax, h.stored.blocks, h.stored.driver⟩, h.errnum⟩

theorem RawOpen.loaded {st : State σ ι} (h : RawOpen st F) (addr : Nat) (bytes : Nat → Byte) : RawOpen (st.loaded addr bytes) F :=
  ⟨⟨h.measureKernel, h.compressedFile, h.filemax, h.stored.blocks, h.stored.driver⟩, h.errnum⟩

theorem Reads.rawOpen (hp : p.Healthy) {st s : State σ ι} (h : Reads p st s) (hst : RawOpen st F)
    (hf : s.faulted = false) : RawOpen s F := by
  induction h with
  | refl => exact hst
  | read _ bytes len ih =>
    have hbefore := (grubRead_agree _ _ _ hf).1
    exact (ih hbefore).read hp _ (.local bytes) ((ih hbefore).reaches hf)
  | seek _ offset ih => exact (ih hf).seek offset

theorem Reads.settings {st s : State σ ι} (h : Reads p st s) : s.settings = st.settings := by
  induction h with
  | refl => rfl
  | read _ bytes len ih => rw [grubRead_keeps, ih]
  | seek _ _ ih => exact ih

theorem badField_reads (fuel : Nat) : ∀ (len : Int) (ch : Byte) (st : State σ ι), Reads p st (badField p fuel len ch st).2 := by
  induction fuel with
  | zero => intro len ch st; exact .refl st
  | succ fuel ih =>
    intro len ch st
    simp only [badField]
    by_cases hend : if 0 ≤ len then len = 0 else ch = 0
    · rw [if_pos hend]
      exact .refl st
    rw [if_neg hend]
    have hread := (Reads.refl (p := p) st).read (fun _ => ch) 1
    split
    · exact hread.trans (ih _ _ _)
    · exact hread

theorem badExtra_reads (buf : Nat → Byte) (st : State σ ι) : Reads p st (badExtra p buf st).2 := by
  simp only [badExtra]
  split
  · exact .refl st
  · split
    · have hread := (Reads.refl (p := p) st).read buf 2
      split
      · exact hread
      · exact hread.trans (badField_reads _ _ _ _)
    · exact .refl st

theorem badString_reads (flag : Byte) (st : State σ ι) : Reads p st (badString p flag st).2 := by
  simp only [badString]
  split
  · exact badField_reads _ _ _ _
  · exact .refl st

theorem badHeader_reads (buf : Nat → Byte) (st : State σ ι) : Reads p st (badHeader p buf st).2 := by
  simp only [badHeader]
  have hextra := badExtra_reads (p := p) buf st
  split
  · exact hextra
  · have hname := hextra.trans (badString_reads (p := p) (buf 3 &&& 0x08) _)
    split
    · exact hname
    · exact hname.trans (badString_reads _ _)

theorem RawOpen.atTrailer {st : State σ ι} (h : RawOpen st F) : RawOpen st.atTrailer F :=
  ⟨⟨h.measureKernel, h.compressedFile, h.filemax, h.stored.blocks, h.stored.driver⟩, h.errnum⟩

/-- The trailer is read. -/
def State.trailer (p : Platform σ ι) (st : State σ ι) : Int × (Nat → Byte) × State σ ι :=
  grubRead p st.atTrailer (.local fun _ => 0) 8

theorem reads_trailer (p : Platform σ ι) (st : State σ ι) : Reads p st.atTrailer (st.trailer p).2.2 := (Reads.refl _).read (fun _ => 0) 8

/-- A file that `gunzip_test_header` accepts is plain, and read from its beginning, or
compressed. -/
theorem testHeader_cases {st st' : State σ ι} (h : gunzipTestHeader p st = (true, st')) :
    (∃ s, Reads p st s ∧ st' = s.atStart) ∨
      ∃ h size, Reads p st h ∧ (h.trailer p).1 = 8 ∧ st' = (h.trailer p).2.2.unpacking p size := by
  simp only [gunzipTestHeader] at h
  by_cases hno : st.noDecompression = true
  · rw [if_pos hno] at h
    exact .inl ⟨st, .refl st, (congrArg Prod.snd h).symm⟩
  rw [if_neg hno] at h
  have hread := (Reads.refl (p := p) st).read (fun _ => 0) 10
  generalize grubRead p st (.local fun _ => 0) 10 = r at h hread
  by_cases hplain : r.1 ≠ 10 ∨ ushortAt r.2.1 0 ≠ 0x8B1F ∧ ushortAt r.2.1 0 ≠ 0x9E1F
  · simp only [if_pos hplain] at h
    exact .inl ⟨r.2.2, hread, (congrArg Prod.snd h).symm⟩
  simp only [if_neg hplain] at h
  have hheader := hread.trans (badHeader_reads (p := p) r.2.1 r.2.2)
  by_cases hbad : (badHeader p r.2.1 r.2.2).1 = true
  · simp only [if_pos hbad] at h
    cases h
  simp only [if_neg hbad, gunzipTrailer] at h
  generalize (badHeader p r.2.1 r.2.2).2 = hd at h hheader
  by_cases hn : (grubRead p hd.atTrailer (.local fun _ => 0) 8).1 ≠ 8
  · simp only [if_pos hn] at h
    cases h
  · simp only [if_neg hn] at h
    exact .inr ⟨hd, _, hheader, not_not.1 hn, (congrArg Prod.snd h).symm⟩

/-! ## Walking to a file -/

/-- A state in which a driver may be asked for a path. -/
structure Ready (st : State σ ι) : Prop where
  errnum : st.errnum = .none
  compressedFile : st.compressedFile = false
  blockFile : st.blockFile = false
  mounted : st.mounted = true
  fsmax : st.fsmax = maxint

/-- The file that a driver has opened, before its header has been looked at. -/
structure Reached (st : State σ ι) : Prop where
  errnum : st.errnum = .none
  compressedFile : st.compressedFile = false
  blockFile : st.blockFile = false
  mounted : st.mounted = true
  filemax : st.filemax = st.file.bytes.length
  filepos : st.filepos = 0

theorem Reached.rawOpen {st : State σ ι} (h : Reached st) (hm : st.measureKernel = false) : RawOpen st st.file.bytes where
  measureKernel := hm
  compressedFile := h.compressedFile
  errnum := h.errnum
  filemax := h.filemax
  stored := ⟨fun hb => absurd (h.blockFile.symm.trans hb) Bool.false_ne_true, fun _ => ⟨h.mounted, rfl⟩⟩

/-- A driver reads a link without an error, from the device or from the copy of a kernel. -/
theorem linkRead_errnum (hp : p.Healthy) {st : State σ ι} (h : Ready st) (link : File) (driver : σ) (buf : Nat → Byte) (len : Int) :
    (grubRead p (st.onLink link driver) (.local buf) len).2.2.errnum = .none := by
  by_cases hm : st.measureKernel = true
  · simp only [grubRead, grubReadWith]
    rw [if_pos (by exact hm)]
    exact h.errnum
  · have hraw : RawOpen (st.onLink link driver) link.bytes := by
      refine ⟨⟨Bool.eq_false_iff.2 hm, h.compressedFile, rfl, fun hb => ?_, fun _ => ⟨h.mounted, rfl⟩⟩, h.errnum⟩
      exact absurd (h.blockFile.symm.trans hb) Bool.false_ne_true
    have hreach : (st.onLink link driver).Reaches link.bytes len := by
      have hfits := link.fits
      have hlen := countAt_le hraw.start.2 len
      have hmax : (st.onLink link driver).fsmax = maxint := h.fsmax
      rw [State.Reaches, hmax, maxint]
      omega
    exact (hraw.read hp _ _ hreach).errnum

/-- A walk that finds a file has it open, whatever links it followed. -/
theorem runWalk_reached (hp : p.Healthy) (walk : DirWalk σ) : ∀ {st st' : State σ ι}, Ready st → runWalk p walk st = (true, st') →
    Reached st' := by
  induction walk with
  | opened file fsmax driver =>
    intro st st' h heq
    obtain rfl := (congrArg Prod.snd heq).symm
    exact ⟨h.errnum, h.compressedFile, h.blockFile, h.mounted, rfl, rfl⟩
  | failed errnum filepos filemax driver => intro st st' h heq; cases heq
  | readLink link linkbuf driver next ih =>
    intro st st' h heq
    have herr := linkRead_errnum hp h link driver linkbuf link.bytes.length
    have hkeep := grubRead_keeps (p := p) (st.onLink link driver) (.local linkbuf) link.bytes.length
    simp only [runWalk] at heq
    generalize grubRead p (st.onLink link driver) (.local linkbuf) link.bytes.length = r at heq herr hkeep
    have hready : Ready r.2.2.atStart :=
      ⟨herr, (congrArg Settings.compressedFile hkeep).trans h.compressedFile,
        (congrArg Settings.blockFile hkeep).trans h.blockFile, (congrArg Settings.mounted hkeep).trans h.mounted,
        (congrArg Settings.fsmax hkeep).trans h.fsmax⟩
    exact ih _ _ _ hready heq

/-! ## Block lists -/

/-- What the block-list loop has parsed so far. -/
structure BlockName.Parsed (name : BlockName) : Prop where
  nonempty : ∀ e ∈ name.list, 0 < e.2
  positive : name.ok = true → 0 < name.filemax
  filemax : name.filemax ≤ sectorsBefore name.list name.list.length * sectorSize

theorem sectorsBefore_append (list : List (Nat × Nat)) (start count : Nat) :
    sectorsBefore (list ++ [(start, count)]) (list ++ [(start, count)]).length = sectorsBefore list list.length + count := by
  simp only [sectorsBefore, List.take_length, List.map_append, List.map_cons, List.map_nil, List.sum_append, List.sum_cons,
    List.sum_nil, Nat.add_zero]

/-- An entry adds its sectors to the size. -/
theorem BlockName.Parsed.entry {name : BlockName} (h : name.Parsed) (start : Nat) {count : Nat} (hc : 0 < count) (ptr : List Byte)
    (overwrites ok : Bool) :
    BlockName.Parsed ⟨overwrites, name.list ++ [(start, count)], name.filemax + count * sectorSize, ptr, ok⟩ := by
  constructor
  · intro e he
    rcases List.mem_append.1 he with he | he
    · exact h.nonempty e he
    · rw [List.mem_singleton.1 he]; exact hc
  · exact fun _ => Nat.lt_of_lt_of_le (Nat.mul_pos hc (by decide)) (Nat.le_add_left _ _)
  · simp only [sectorsBefore_append, Nat.add_mul]
    have := h.filemax
    omega

theorem parseBlocks_parsed (fuel : Nat) : ∀ {name : BlockName}, name.Parsed → (parseBlocks fuel name).Parsed := by
  induction fuel with
  | zero => intro name h; exact h
  | succ fuel ih =>
    intro name h
    simp only [parseBlocks]
    split
    next ptr' _ =>
      split
      next => exact ⟨h.nonempty, nofun, h.filemax⟩
      next count ptr'' _ =>
        split
        next => exact ⟨h.nonempty, nofun, h.filemax⟩
        next hcount =>
          have hentry := h.entry ((safeParseMaxint name.ptr).toOption.getD (0, name.ptr)).1
            (Nat.pos_of_ne_zero fun hzero => hcount (.inl hzero))
          split
          next => exact ih (hentry _ _ _)
          next => exact hentry _ _ _
    next =>
      split
      next => exact ⟨h.nonempty, nofun, h.filemax⟩
      next hsize =>
        have hle := h.filemax
        exact ⟨h.nonempty, fun _ => by simp only; omega, by simp only; omega⟩

/-- A block list is open, before its header has been looked at. -/
structure OnBlocks (st : State σ ι) : Prop where
  errnum : st.errnum = .none
  compressedFile : st.compressedFile = false
  blockFile : st.blockFile = true
  filepos : st.filepos = 0
  cursor : st.blocks.Cursor
  positive : 0 < st.filemax
  filemax : st.filemax ≤ (sectorsBefore st.blocks.list st.blocks.list.length * sectorSize : Nat)
  fits : st.filemax ≤ maxint

/-- The size of the open file, as it is stored. -/
def State.rawSize (st : State σ ι) : Int := if st.compressedFile then st.gzip.filemax else st.filemax

/-- The bytes of the open file, as it is stored. -/
def State.rawFile (st : State σ ι) : List Byte :=
  if st.blockFile then (blocksContent st.part st.blocks.list).take st.rawSize.toNat else st.file.bytes

theorem OnBlocks.rawFile {st : State σ ι} (h : OnBlocks st) :
    st.rawFile = (blocksContent st.part st.blocks.list).take st.filemax.toNat := by
  rw [State.rawFile, if_pos h.blockFile, State.rawSize, if_neg (by simp [h.compressedFile])]

theorem OnBlocks.size {st : State σ ι} (h : OnBlocks st) : st.rawFile.length = st.filemax.toNat := by
  have := h.filemax
  rw [h.rawFile, List.length_take, blocksContent_length]
  omega

theorem OnBlocks.rawOpen {st : State σ ι} (h : OnBlocks st) (hm : st.measureKernel = false) : RawOpen st st.rawFile := by
  have hraw := h.rawFile
  have hlen := h.size
  have hnonneg := h.positive
  refine ⟨⟨hm, h.compressedFile, by omega, ?_, ?_⟩, h.errnum⟩
  · exact fun _ => ⟨h.cursor, by rw [hlen]; exact hraw⟩
  · exact fun hb => absurd (h.blockFile.symm.trans hb) (by decide)

theorem Reached.rawFile {st : State σ ι} (h : Reached st) : st.rawFile = st.file.bytes := by
  rw [State.rawFile, if_neg (by rw [h.blockFile]; decide)]

/-- Nothing has been measured yet. -/
structure Unmeasured (st : State σ ι) : Prop where
  mySha1 : Sha1.Represents st.mySha1 []
  byteCount : st.sha1ByteCount = 0
  hasToMeasure : st.sha1HasToMeasure = 0
  links : st.links = []

/-- A file has been opened from `st`: the state `st'` follows a look at the header,
from a state in which a driver has reached the file, or a block list has been parsed. -/
inductive OpenedFrom (p : Platform σ ι) (st st' : State σ ι) : Prop where
  | path (w s : State σ ι) (walk : DirWalk σ) (ready : Ready w) (unmeasured : Unmeasured w) (filepos : w.filepos = 0)
      (flags : SameFlags w st) (walked : runWalk p walk w = (true, s)) (opened : openMeasured p s = (true, st'))
  | blocks (s : State σ ι) (on : OnBlocks s) (unmeasured : Unmeasured s) (flags : SameFlags s st)
      (opened : gunzipTestHeader p s = (true, st'))

theorem openPath_opened {st st' : State σ ι} {filename : List Byte} (h : openPath p st filename = .returned true st')
    (hc : st.compressedFile = false) (hb : st.blockFile = false) (hf : st.fsmax = maxint) (hpos : st.filepos = 0)
    (hu : Unmeasured st) : OpenedFrom p st st' := by
  simp only [openPath] at h
  split at h
  next => cases h
  next herr =>
    split at h
    next hm =>
      generalize hwalk : runWalk p (p.dirFunc filename st.driver) st = r at h
      obtain ⟨found, s⟩ := r
      cases found with
      | false => cases h
      | true =>
        generalize hopened : openMeasured p s = o at h
        obtain ⟨result, s'⟩ := o
        cases h
        exact .path st s _ ⟨not_not.1 herr, hc, hb, hm, hf⟩ hu hpos (.refl st) hwalk hopened
    next hm => cases h

theorem OpenedFrom.of_flags {s st st' : State σ ι} (h : OpenedFrom p s st') (hf : SameFlags s st) : OpenedFrom p st st' := by
  cases h with
  | path w s walk ready unmeasured filepos flags walked opened =>
    exact .path w s walk ready unmeasured filepos (flags.trans hf) walked opened
  | blocks s on unmeasured flags opened => exact .blocks s on unmeasured (flags.trans hf) opened

/-- A name that is a block list, as `grub_open` leaves it for a look at the header. -/
theorem onBlocks_named (st : State σ ι) (filename : DiskName) (part : Nat → Byte) (mounted : Bool) (errnum : GrubError) (driver : σ)
    (hok : (blockName filename.chars).ok = true) :
    OnBlocks (((st.restarted.chosen part mounted errnum driver).named (blockName filename.chars)).onBlocks
      (blockName filename.chars).list) := by
  have hparsed := @parseBlocks_parsed (filename.chars.length + 1) ⟨false, [], 0, filename.chars, false⟩
    ⟨fun e he => absurd he (by simp), nofun, Nat.zero_le _⟩
  refine ⟨if_pos hok, rfl, rfl, rfl, ⟨hparsed.nonempty, ?_, ?_, ?_⟩, ?_, ?_, ?_⟩
  · simp [State.onBlocks, sectorsBefore]
  · intro hl
    simp only [State.onBlocks, Blocks.entry, List.getD] at hl ⊢
    rw [List.getElem?_eq_getElem hl, Option.getD_some]
    exact hparsed.nonempty _ (List.getElem_mem hl)
  · intro hl
    exact ⟨Nat.le_antisymm (Nat.zero_le _) hl, rfl⟩
  · exact Int.natCast_pos.2 (hparsed.positive hok)
  · exact Int.ofNat_le.2 hparsed.filemax
  · exact Int.ofNat_le.2 filename.fits

theorem openName_opened {st st' : State σ ι} {filename : List Byte} (h : openName p st filename = .returned true st') :
    OpenedFrom p st st' := by
  simp only [openName] at h
  cases hs : p.setupPart filename st.restarted.driver with
  | refused errnum driver =>
    simp only [hs] at h
    split at h <;> cases h
  | chosen filename part mounted errnum driver =>
    simp only [hs] at h
    have hu : Unmeasured (st.restarted.chosen part mounted errnum driver) := ⟨Sha1.init_represents _, rfl, rfl, rfl⟩
    have hflags := (chosen_flags st.restarted part mounted errnum driver).trans (restarted_flags st)
    split at h
    next => exact (openPath_opened h rfl rfl rfl rfl hu).of_flags hflags
    next =>
      have hnamed := (named_flags _ (blockName filename.chars)).trans hflags
      split at h
      next hok =>
        generalize hr : gunzipTestHeader p _ = r at h
        obtain ⟨result, s'⟩ := r
        cases h
        exact .blocks _ (onBlocks_named st filename part mounted errnum driver hok.1) ⟨hu.mySha1, rfl, rfl, rfl⟩
          ((onBlocks_flags _ _).trans hnamed) hr
      next => exact (openPath_opened h rfl rfl rfl rfl ⟨hu.mySha1, rfl, rfl, rfl⟩).of_flags hnamed

theorem openPasses_opened {filename : FileName} (trials : List (List Byte)) : ∀ {held : List Byte} {st st' : State σ ι},
    openPasses p filename trials held st = (true, st') → OpenedFrom p st st' := by
  induction trials with
  | nil => intro _ st st' h; cases h
  | cons trial trials ih =>
    intro held st st' h
    have hpass := openName_flags (p := p) st (filename.alternative (filename.held st held) trial)
    simp only [openPasses] at h
    cases hn : openName p st (filename.alternative (filename.held st held) trial) with
    | returned result s =>
      simp only [hn] at h
      cases h
      exact openName_opened hn
    | retry s =>
      simp only [hn] at h hpass
      exact (ih h).of_flags hpass

/-- **A successful `grub_open`**, under whichever name. -/
theorem grubOpen_opened {st st' : State σ ι} {filename : FileName} (h : grubOpen p st filename = (true, st')) :
    OpenedFrom p st st' := by
  have hpass := openName_flags (p := p) st (filename.held st (p.fn st.driver))
  simp only [grubOpen] at h
  cases hn : openName p st (filename.held st (p.fn st.driver)) with
  | returned result s =>
    simp only [hn] at h
    cases h
    exact openName_opened hn
  | retry s =>
    simp only [hn] at h hpass
    exact (openPasses_opened _ h).of_flags hpass

/-! ## Plain files -/

theorem RawOpen.rawFile {st : State σ ι} (h : RawOpen st F) : st.rawFile = F := by
  by_cases hb : st.blockFile = true
  · rw [State.rawFile, if_pos hb, State.rawSize, if_neg (by simp [h.compressedFile]), h.filemax, Int.toNat_natCast]
    exact (h.stored.blocks hb).content.symm
  · rw [State.rawFile, if_neg hb]
    exact (h.stored.driver (Bool.eq_false_iff.2 hb)).2

theorem RawOpen.atStart {st : State σ ι} (h : RawOpen st F) : RawOpen st.atStart F :=
  ⟨⟨h.measureKernel, h.compressedFile, h.filemax, h.stored.blocks, h.stored.driver⟩, h.errnum⟩

/-- A plain file is open at its beginning. -/
structure PlainOpen (st : State σ ι) : Prop where
  filepos : st.filepos = 0
  nonneg : 0 ≤ st.filemax
  fits : st.filemax ≤ maxint
  errnum : st.errnum = .none
  rawOpen : st.measureKernel = false → RawOpen st st.rawFile

theorem testHeader_plain {st st' : State σ ι} (h : gunzipTestHeader p st = (true, st')) (hc : st'.compressedFile = false) :
    ∃ s, Reads p st s ∧ st' = s.atStart := by
  rcases testHeader_cases h with hplain | ⟨hd, size, -, -, rfl⟩
  · exact hplain
  · cases hc

/-- A header that is none tells whether an error is pending. -/
theorem testHeader_errnum {st st' : State σ ι} (h : gunzipTestHeader p st = (true, st')) (hc : st'.compressedFile = false) :
    st'.errnum = .none := by
  unfold gunzipTestHeader at h
  split at h
  · obtain ⟨herr, rfl⟩ := Prod.mk.inj h
    exact of_decide_eq_true herr
  · dsimp only at h
    split at h
    · obtain ⟨herr, rfl⟩ := Prod.mk.inj h
      exact of_decide_eq_true herr
    · split at h
      · cases (Prod.mk.inj h).1
      · unfold gunzipTrailer at h
        dsimp only at h
        split at h
        · cases (Prod.mk.inj h).1
        · rw [← (Prod.mk.inj h).2] at hc
          cases hc

/-- What a plain file's header leaves of an open file. -/
theorem PlainOpen.of_header (hp : p.Healthy) {st st' : State σ ι} (h : gunzipTestHeader p st = (true, st'))
    (hf : st'.faulted = false) (hc : st'.compressedFile = false) (hnonneg : 0 ≤ st.filemax) (hfits : st.filemax ≤ maxint)
    (hraw : st.measureKernel = false → RawOpen st st.rawFile) : PlainOpen st' := by
  have herr := testHeader_errnum h hc
  obtain ⟨s, hreads, rfl⟩ := testHeader_plain h hc
  have hkeep := hreads.settings
  have hmax : s.filemax = st.filemax := congrArg Settings.filemax hkeep
  have hm : s.measureKernel = st.measureKernel := congrArg Settings.measureKernel hkeep
  refine ⟨rfl, hmax ▸ hnonneg, hmax ▸ hfits, herr, fun hoff => ?_⟩
  have hs := (hreads.rawOpen hp (hraw (hm.symm.trans hoff)) hf).atStart
  rw [hs.rawFile]
  exact hs

theorem RawOpen.probed {st : State σ ι} (h : RawOpen st F) : RawOpen (st.probed false) F :=
  ⟨⟨rfl, h.compressedFile, h.filemax, h.stored.blocks, h.stored.driver⟩, h.errnum⟩

theorem Reached.probing {st : State σ ι} (h : Reached st) : Reached st.probing :=
  ⟨h.errnum, h.compressedFile, h.blockFile, h.mounted, h.filemax, h.filepos⟩

theorem Reached.bounds {st : State σ ι} (h : Reached st) : 0 ≤ st.filemax ∧ st.filemax ≤ maxint := by
  have := st.file.fits
  rw [h.filemax, maxint]
  omega

theorem copyKernel_kept (st : State σ ι) : (copyKernel p st).compressedFile = st.compressedFile ∧
    (copyKernel p st).filemax = st.filemax ∧ (copyKernel p st).links = st.links := by
  have hkeep := grubRead_keeps (p := p) st.copyPrepared (st.copyPrepared.physical st.copyPrepared.kernelRealAddr)
    st.copyPrepared.copyLength
  exact ⟨congrArg Settings.compressedFile hkeep, congrArg Settings.filemax hkeep, congrArg Settings.links hkeep⟩

/-- The copy of a plain file goes well if no device access fails. -/
theorem copyKernel_errnum (hp : p.Healthy) {st : State σ ι} (h : RawOpen st F) (hf : (copyKernel p (st.probed true)).faulted = false) :
    (copyKernel p (st.probed true)).errnum = .none := by
  have hprepared : RawOpen (st.probed true).copyPrepared F :=
    ⟨⟨rfl, h.compressedFile, h.filemax, h.stored.blocks, h.stored.driver⟩, h.errnum⟩
  exact (hprepared.read hp _ _ (hprepared.reaches hf)).errnum

theorem openMeasured_plain (hp : p.Healthy) {st st' : State σ ι} (h : Reached st) (heq : openMeasured p st = (true, st'))
    (hf : st'.faulted = false) (hc : st'.compressedFile = false) : PlainOpen st' := by
  obtain ⟨hnonneg, hfits⟩ := h.bounds
  have hraw {s : State σ ι} (hs : Reached s) (hm : s.measureKernel = false) : RawOpen s s.rawFile := by
    rw [hs.rawFile]
    exact hs.rawOpen hm
  simp only [openMeasured] at heq
  by_cases hmeasure : st.performSha1 = true
  · simp only [if_pos hmeasure] at heq
    generalize hr : gunzipTestHeader p st.probing = r at heq
    obtain ⟨temp, s⟩ := r
    obtain ⟨rfl, hs⟩ := Prod.mk.inj heq
    have hplain (hfs : s.faulted = false) (hcs : s.compressedFile = false) : PlainOpen s :=
      .of_header hp hr hfs hcs hnonneg hfits fun hm => hraw h.probing hm
    by_cases hm : st.measureKernel = true
    · rw [if_pos hm] at hs
      obtain ⟨hcomp, hsize, -⟩ := copyKernel_kept (p := p) (s.probed st.measureKernel)
      rw [hs] at hcomp hsize
      have hfs : s.faulted = false := (copyKernel_agree (p := p) (s.probed st.measureKernel) (hs ▸ hf)).1
      have hcs : s.compressedFile = false := hcomp.symm.trans hc
      have hmax : st'.filemax = s.filemax := hsize
      have hsoff : s.measureKernel = false := by
        have := (testHeader_flags (p := p) st.probing).measureKernel
        rw [hr] at this
        exact this
      have herr : st'.errnum = .none := by
        rw [hm] at hs
        rw [← hs]
        exact copyKernel_errnum hp ((hplain hfs hcs).rawOpen hsoff) (hs ▸ hf)
      refine ⟨by rw [← hs]; rfl, hmax ▸ (hplain hfs hcs).nonneg, hmax ▸ (hplain hfs hcs).fits, herr, fun hoff => ?_⟩
      rw [← hs] at hoff
      exact absurd hoff (by simp [copyKernel, State.copied])
    · rw [if_neg hm] at hs
      have hm' := Bool.eq_false_iff.2 hm
      subst hs
      rw [hm'] at hc hf ⊢
      have hplain := hplain hf hc
      have hsoff : s.measureKernel = false := by
        have := (testHeader_flags (p := p) st.probing).measureKernel
        rw [hr] at this
        exact this
      refine ⟨hplain.filepos, hplain.nonneg, hplain.fits, hplain.errnum, fun _ => ?_⟩
      rw [(hplain.rawOpen hsoff).probed.rawFile]
      exact (hplain.rawOpen hsoff).probed
  · simp only [if_neg hmeasure] at heq
    exact .of_header hp heq hf hc hnonneg hfits fun hm => hraw h hm

/-- **A plain file has been opened.** -/
theorem OpenedFrom.plain (hp : p.Healthy) {st st' : State σ ι} (h : OpenedFrom p st st') (hf : st'.faulted = false)
    (hc : st'.compressedFile = false) : PlainOpen st' := by
  cases h with
  | path w s walk ready unmeasured filepos flags walked opened =>
    exact openMeasured_plain hp (runWalk_reached hp walk ready walked) opened hf hc
  | blocks s on unmeasured flags opened =>
    exact .of_header hp opened hf hc on.positive.le on.fits on.rawOpen

end TrustedGrub.Disk
