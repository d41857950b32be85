import TrustedGrub.Disk.Opened

/-!
# Block-list files

A block list that is open stays open, and its cursor on the right sector, through any
seeks and reads, whatever fails in between: a read that leaves no error pending has
delivered the part of the list's sectors that was asked for.
-/

namespace TrustedGrub.Disk
open Fips180 (Byte)
open Memory (segment store)

variable {σ ι : Type} {p : Platform σ ι} {F : List Byte}

/-- A `devread` that fails says so in `errnum`. -/
def Platform.Reports (p : Platform σ ι) : Prop := ∀ d rq, ∀ fault ∈ (p.devread d rq).1, fault.errnum ≠ .none

/-- The block list with the content `F` is open, not to be unpacked and not to be read from memory. -/
structure BlockOpen (st : State σ ι) (F : List Byte) : Prop where
  measureKernel : st.measureKernel = false
  compressedFile : st.compressedFile = false
  blockFile : st.blockFile = true
  filemax : st.filemax = F.length
  reach : (F.length : Int) ≤ st.fsmax
  hold : st.blocks.Hold st.part F

/-- What the block loop may change. -/
def State.looped (st : State σ ι) (driver : σ) (blocks : Blocks) (filepos : Int) (errnum : GrubError) (faulted : Bool) : State σ ι :=
  { st with driver := driver, blocks := blocks, filepos := filepos, errnum := errnum, faulted := faulted }

theorem BlockOpen.looped {st : State σ ι} (h : BlockOpen st F) {blocks : Blocks} (hb : blocks.Hold st.part F) (driver : σ)
    (filepos : Int) (errnum : GrubError) (faulted : Bool) : BlockOpen (st.looped driver blocks filepos errnum faulted) F :=
  ⟨h.measureKernel, h.compressedFile, h.blockFile, h.filemax, h.reach, hb⟩

theorem BlockOpen.aimed {st : State σ ι} (h : BlockOpen st F) : BlockOpen st.aimed F :=
  ⟨h.measureKernel, h.compressedFile, h.blockFile, h.filemax, h.reach, h.hold⟩

theorem BlockOpen.rewound {st : State σ ι} (h : BlockOpen st F) : BlockOpen st.rewound F :=
  ⟨h.measureKernel, h.compressedFile, h.blockFile, h.filemax, h.reach, h.hold⟩

theorem BlockOpen.hashed {st : State σ ι} (h : BlockOpen st F) (bytes : List Byte) (count : Int) :
    BlockOpen (st.hashed bytes count) F :=
  ⟨h.measureKernel, h.compressedFile, h.blockFile, h.filemax, h.reach, h.hold⟩

theorem BlockOpen.resumed {st : State σ ι} (h : BlockOpen st F) : BlockOpen st.resumed F :=
  ⟨h.measureKernel, h.compressedFile, h.blockFile, h.filemax, h.reach, h.hold⟩

theorem BlockOpen.moved {st : State σ ι} (h : BlockOpen st F) (filepos : Int) : BlockOpen { st with filepos := filepos } F :=
  ⟨h.measureKernel, h.compressedFile, h.blockFile, h.filemax, h.reach, h.hold⟩

theorem blockLoop_stopped (buf : Dest) (fuel off len : Nat) (bytes : Nat → Byte) {st : State σ ι} (h : st.errnum ≠ .none) :
    (blockLoop p buf fuel off len (bytes, st)).2 = st := by
  cases fuel with
  | zero => rfl
  | succ fuel => rw [blockLoop, if_neg (by simp [h])]

/-- The block loop, whatever the device does. The induction is on the passes, of which
each takes at least one byte off `len`. -/
theorem blockLoop_spec (hr : p.Reports) (buf : Dest) (fuel : Nat) :
    ∀ (off len : Nat) (bytes : Nat → Byte) (st : State σ ι), len ≤ fuel → st.blocks.Hold st.part F →
      0 ≤ st.filepos → st.filepos + len ≤ F.length →
      ∃ driver blocks filepos errnum faulted,
        (blockLoop p buf fuel off len (bytes, st)).2 = st.looped driver blocks filepos errnum faulted ∧ blocks.Hold st.part F ∧
        (errnum = .none → st.errnum = .none ∧ filepos = st.filepos + len ∧
          (blockLoop p buf fuel off len (bytes, st)).1 = store bytes off (segment F st.filepos.toNat len)) := by
  induction fuel with
  | zero =>
    intro off len bytes st hle hb _ _
    obtain rfl : len = 0 := by omega
    refine ⟨st.driver, st.blocks, st.filepos, st.errnum, st.faulted, rfl, hb, fun herr => ⟨herr, ?_, ?_⟩⟩
    · simp
    · simp [blockLoop]
  | succ fuel ih =>
    intro off len bytes st hle hb hpos hend
    by_cases hgoes : 0 < len ∧ st.errnum = .none
    · obtain ⟨hlen, herr⟩ := hgoes
      obtain ⟨pos, hp'⟩ := Int.eq_ofNat_of_zero_le hpos
      have hnat : st.filepos.toNat = pos := by omega
      obtain ⟨hb', -, hat⟩ := hb.find pos (by omega)
      obtain ⟨hsize, hpiece⟩ := hb'.piece hat hlen (by omega)
      simp only [blockLoop, State.blockRequest, hlen, herr, and_self, if_true, hnat, Int.toNat_natCast]
      generalize hsz : min _ len = size at hsize hpiece ⊢
      have hle' : size ≤ len := by omega
      rw [hpiece size (Nat.le_refl _)]
      generalize hrq : (⟨_, size, buf.usable off size, GrubError.none⟩ : Request) = rq
      cases hanswer : p.devread st.driver rq with
      | mk fault driver' =>
      cases fault with
      | none =>
        obtain ⟨driver, blocks, filepos, errnum, faulted, heq, hhold, hok⟩ := ih
          (off + size) (len - size) (store bytes off (segment F pos size))
          (st.blockAnswered (st.blocks.find pos) size (none, driver'))
          (by omega) hb' (by simp only [State.blockAnswered]; omega) (by simp only [State.blockAnswered]; omega)
        refine ⟨driver, blocks, filepos, errnum, faulted, heq, hhold, fun herr' => ?_⟩
        obtain ⟨-, hfile, hbytes⟩ := hok herr'
        have hseg : ((st.filepos + (size : Int)).toNat) = pos + size := by omega
        have hlen' : size + (len - size) = len := by omega
        refine ⟨trivial, ?_, ?_⟩
        · rw [hfile]
          simp only [State.blockAnswered]
          omega
        · simp only [access]
          rw [hbytes]
          simp only [State.blockAnswered, hseg]
          rw [Memory.store_segment_append _ _ (by omega), hlen']
      | some fault =>
        -- the error ends the loop
        have hfault : fault.errnum ≠ .none := hr st.driver rq fault (by rw [hanswer]; rfl)
        refine ⟨driver', st.blocks.find pos, st.filepos + size, fault.errnum, true, ?_, hb', fun h => absurd h hfault⟩
        rw [blockLoop_stopped buf _ _ _ _ hfault]
        rfl
    · refine ⟨st.driver, st.blocks, st.filepos, st.errnum, st.faulted, ?_, hb, fun herr => ?_⟩
      · rw [blockLoop, if_neg hgoes]
        rfl
      · obtain rfl : len = 0 := by
          by_contra hlen
          exact hgoes ⟨by omega, herr⟩
        refine ⟨herr, by simp, ?_⟩
        rw [blockLoop, if_neg hgoes]
        simp

/-- What a read that leaves no error pending has done: all that was asked for is in the buffer. -/
structure BlockRead (F : List Byte) (st : State σ ι) (buf : Dest) (len : Int) (r : Int × (Nat → Byte) × State σ ι) : Prop where
  count : r.1 = countAt F.length st.startOf len
  bytes : r.2.1 = store buf.bytes 0 (segment F st.startOf (countAt F.length st.startOf len))
  filepos : r.2.2.filepos = st.startOf + countAt F.length st.startOf len
  before : st.errnum = .none

/-- A read of an open block list. -/
structure BlockStep (F : List Byte) (st : State σ ι) (buf : Dest) (len : Int) (r : Int × (Nat → Byte) × State σ ι) : Prop where
  remains : BlockOpen r.2.2 F
  delivers : r.2.2.errnum = .none → BlockRead F st buf len r
  fails : r.2.2.errnum ≠ .none → r.1 = 0

theorem BlockOpen.start {st : State σ ι} (h : BlockOpen st F) :
    st.aimed.filepos = st.startOf ∧ st.startOf ≤ F.length := by
  have hmax := h.filemax
  simp only [State.aimed, State.startOf, saneFilepos]
  split <;> omega

theorem BlockOpen.saneLen {st : State σ ι} (h : BlockOpen st F) (len : Int) :
    st.aimed.saneLen len = countAt F.length st.startOf len := by
  obtain ⟨hstart, hle⟩ := h.start
  have hmax : st.aimed.filemax = F.length := h.filemax
  rw [State.saneLen, hstart, hmax, countAt]
  split <;> omega

/-- A read, once the skipped part of the file has been dealt with. -/
theorem BlockOpen.read_behind (hr : p.Reports) {read : Reader σ ι} {st s : State σ ι} (h : BlockOpen st F) (buf : Dest) (len : Int)
    (hskip : measureSkipped read st.aimed = s) (hs : BlockOpen s F)
    (hpos : s.errnum = .none → st.errnum = .none ∧ s.filepos = st.startOf) :
    BlockStep F st buf len (grubReadWith p read st buf len) := by
  obtain ⟨hstart, hle⟩ := h.start
  have hend := countAt_le hle len
  have hreach : ¬ st.aimed.fsmax < st.aimed.filepos + st.aimed.saneLen len := by
    have hfs : st.aimed.fsmax = st.fsmax := rfl
    have hmax := h.reach
    rw [h.saneLen, hstart, hfs]
    omega
  have hread : grubReadWith p read st buf len = blockRead p s buf (countAt F.length st.startOf len) := by
    simp only [grubReadWith]
    rw [if_neg (by simp [State.aimed, h.measureKernel]), if_neg hreach, hskip, h.saneLen, fileRead,
      if_neg (by simp [hs.compressedFile]), if_pos hs.blockFile]
  rw [hread]
  simp only [blockRead, Int.toNat_natCast]
  generalize hcount : countAt F.length st.startOf len = n at hend ⊢
  by_cases herr : s.errnum = .none
  · obtain ⟨herr', hfile⟩ := hpos herr
    obtain ⟨driver, blocks, filepos, errnum, faulted, heq, hhold, hok⟩ :=
      blockLoop_spec (p := p) hr buf n 0 n buf.bytes s (Nat.le_refl n) hs.hold (by omega) (by omega)
    have hnat : s.filepos.toNat = st.startOf := by omega
    rw [hnat] at hok
    constructor
    · rw [heq]
      exact hs.looped hhold _ _ _ _
    · intro hnone
      have hnone' := hnone
      rw [heq] at hnone'
      obtain ⟨-, hfile', hbytes⟩ := hok hnone'
      constructor
      · rw [hcount]
        exact if_pos hnone
      · rw [hcount]
        exact hbytes
      · rw [heq, hcount]
        simp only [State.looped]
        omega
      · exact herr'
    · intro hsome
      exact if_neg hsome
  · have hstop := blockLoop_stopped (p := p) buf n 0 n buf.bytes herr
    constructor
    · rw [hstop]
      exact hs
    · intro hnone
      rw [hstop] at hnone
      exact absurd hnone herr
    · intro hsome
      exact if_neg hsome

/-- A read that has no part to skip. -/
theorem BlockOpen.read_direct (hr : p.Reports) (read : Reader σ ι) {st : State σ ι} (h : BlockOpen st F) (buf : Dest) (len : Int)
    (hskip : ¬ (st.performSha1 = true ∧ st.sha1ByteCount = 0 ∧ 0 < st.startOf)) :
    BlockStep F st buf len (grubReadWith p read st buf len) := by
  have hpos := h.start.1
  apply h.read_behind hr buf len (s := st.aimed) _ h.aimed
  · intro herr
    exact ⟨herr, hpos⟩
  · rw [measureSkipped, if_neg]
    rw [hpos]
    intro hcond
    exact hskip ⟨hcond.1, hcond.2.1, by omega⟩

/-- **A read of a block list**, measured or not. -/
theorem BlockOpen.read (hr : p.Reports) (read : Reader σ ι) {st : State σ ι} (h : BlockOpen st F) (buf : Dest) (len : Int) :
    BlockStep F st buf len (grubReadWith p (grubReadWith p read) st buf len) := by
  by_cases hskip : st.performSha1 = true ∧ st.sha1ByteCount = 0 ∧ 0 < st.startOf
  · -- the part before is read first, with measuring off
    obtain ⟨hpos, hle⟩ := h.start
    have hinner : st.aimed.rewound.startOf = 0 := by
      have hmax := h.filemax
      have hzero : saneFilepos 0 st.filemax = 0 := saneFilepos_of_le (le_refl 0) (by omega)
      exact congrArg Int.toNat hzero
    have hstep := h.aimed.rewound.read_direct hr read (.local fun _ => 0) st.aimed.filepos (by simp [State.rewound])
    apply h.read_behind hr buf len (s := measureSkipped (grubReadWith p read) st.aimed) rfl
    · rw [measureSkipped, if_pos ⟨hskip.1, hskip.2.1, by rw [hpos]; exact_mod_cast hskip.2.2⟩]
      exact hstep.remains.resumed.hashed _ _
    · rw [measureSkipped, if_pos ⟨hskip.1, hskip.2.1, by rw [hpos]; exact_mod_cast hskip.2.2⟩]
      intro herr
      have hdone := hstep.delivers herr
      refine ⟨hdone.before, ?_⟩
      have hfile := hdone.filepos
      have hcount : countAt F.length 0 st.aimed.filepos = st.startOf := by rw [hpos, countAt_self hle]
      rw [hinner, hcount] at hfile
      simp only [State.resumed, State.hashed]
      rw [hfile, Nat.cast_zero, zero_add]
  · exact h.read_direct hr _ buf len hskip

/-! ## Runs -/

/-- The calls that use an open file; a command may also take note of an error and go on. -/
inductive FileCall where
  | seek (offset : Int)
  | read (buf : Dest) (len : Int)
  | resume

def FileCall.run (p : Platform σ ι) (st : State σ ι) : FileCall → State σ ι
  | .seek offset => (grubSeek st offset).2
  | .read buf len => (grubRead p st buf len).2.2
  | .resume => { st with errnum := .none }

theorem BlockOpen.call (hr : p.Reports) {st : State σ ι} (h : BlockOpen st F) (call : FileCall) : BlockOpen (call.run p st) F := by
  cases call with
  | seek offset =>
    simp only [FileCall.run, grubSeek]
    split
    · exact h
    · exact h.moved offset
  | read buf len => exact (h.read hr _ buf len).remains
  | resume => exact ⟨h.measureKernel, h.compressedFile, h.blockFile, h.filemax, h.reach, h.hold⟩

theorem BlockOpen.calls (hr : p.Reports) (calls : List FileCall) : ∀ {st : State σ ι}, BlockOpen st F →
    BlockOpen (calls.foldl (FileCall.run p) st) F := by
  induction calls with
  | nil => intro st h; exact h
  | cons call calls ih => intro st h; exact ih (h.call hr call)

theorem BlockOpen.reads (hr : p.Reports) {st s : State σ ι} (h : Reads p st s) (hst : BlockOpen st F) : BlockOpen s F := by
  induction h with
  | refl => exact hst
  | read _ bytes len ih => exact (ih.read hr _ (.local bytes) len).remains
  | seek _ offset ih => exact ih.moved offset

/-- The sectors of a block-list name in a partition, as far as the name says that the file goes. -/
def BlockName.content (name : BlockName) (part : Nat → Byte) : List Byte := (blocksContent part name.list).take name.filemax

/-- Without failures, a read leaves no error pending. -/
theorem BlockOpen.errnum (hp : p.Healthy) (read : Reader σ ι) {st : State σ ι} (h : BlockOpen st F) (herr : st.errnum = .none)
    (buf : Dest) (len : Int) : (grubReadWith p (grubReadWith p read) st buf len).2.2.errnum = .none := by
  have hraw : RawOpen st F :=
    ⟨⟨h.measureKernel, h.compressedFile, h.filemax, fun _ => h.hold, fun hb => absurd (h.blockFile.symm.trans hb) (by decide)⟩, herr⟩
  obtain ⟨-, hle⟩ := h.start
  have hreach : st.Reaches F len := by
    have hmax := h.reach
    have := countAt_le hle len
    rw [State.Reaches]
    omega
  exact (hraw.read hp read buf hreach).errnum

/-- A partition of four sectors: the first is a gzip file of 489 zeros, stored without
packing, the others hold their number. -/
def gzipPart : Nat → Byte := fun i =>
  if 512 ≤ i then BitVec.ofNat 8 (i / 512)
  else if i < 15 then [0x1F, 0x8B, 8, 0, 0, 0, 0, 0, 0, 3, 1, 0xE9, 1, 0x16, 0xFE].getD i 0
  else if i < 504 then 0
  else [0x56, 0x4A, 0x6A, 0x7E, 0xE9, 1, 0, 0].getD (i - 504) 0

/-- `inflate` takes the bytes of the stored block. -/
def takeBytes : Nat → Inflating Unit
  | 0 => .window () false
  | n + 1 => .getByte fun _ _ => takeBytes n

/-- The disk with this partition alone. -/
def gzipDisk : Platform Unit Unit :=
  { Platform.ofFiles (fun _ => none) with
    setupPart := fun name _ =>
      if h : (blockName name).filemax ≤ 0x7FFFFFFF then .chosen ⟨name, h⟩ gzipPart false .none () else .refused .noDisk ()
    devread := fun _ rq => if rq.pos + rq.len ≤ 2048 then (rq.served, ()) else (some ⟨0, [], rq.pos, .outsidePart⟩, ())
    inflateWindow := fun _ => takeBytes 494 }

/-- A name on this disk is open. -/
def opened (filename : FileName) : State Unit Unit := (grubOpen gzipDisk (State.atBoot () () 640 65536) filename).2

end TrustedGrub.Disk
