import TrustedGrub.Disk.Opened

/-!
# What is measured of a file

The measurement of an open file stands for the first bytes of it, as long as every
read that is hashed goes on where the hash stands. `Measures` is that invariant;
`Reading` is the state of a file that is read in this way, whether it is stored plain,
unpacked on the way, or served from the copy of a kernel.
-/

namespace TrustedGrub.Disk
open Fips180 (Byte Word Words)
open Memory (segment slice)

variable {σ ι : Type} {p : Platform σ ι} {F : List Byte}

/-- The hash stands for the first `sha1_byte_count` bytes of `F`. -/
structure Hashes (st : State σ ι) (F : List Byte) : Prop where
  mySha1 : Sha1.Represents st.mySha1 (F.take st.sha1ByteCount.toNat)
  within : st.sha1ByteCount.toNat ≤ F.length
  fits : F.length ≤ 0x7FFFFFFF

/-- The size of `F` is expected, if any. -/
def State.Expects (st : State σ ι) (F : List Byte) : Prop :=
  st.sha1HasToMeasure = 0 ∨ st.sha1HasToMeasure.toNat = F.length

/-- What is measured is the beginning of `F`, and the size expected is its size. -/
structure Measures (st : State σ ι) (F : List Byte) : Prop extends Hashes st F where
  expected : st.Expects F

/-- The next read goes on where the hash stands. Reads of block lists are not hashed. -/
def State.Aligned (st : State σ ι) : Prop :=
  st.blockFile = true ∨ st.sha1ByteCount = 0 ∨ st.startOf = st.sha1ByteCount.toNat

theorem word_ofInt {n : Nat} (h : n < 2 ^ 32) : (BitVec.ofInt 32 (n : Int) : Word).toNat = n := by
  rw [BitVec.ofInt_natCast, BitVec.toNat_ofNat, Nat.mod_eq_of_lt h]

/-- Hashing the next bytes of the file. -/
theorem Hashes.hashed {st : State σ ι} (h : Hashes st F) {pos n : Nat} (hpos : st.sha1ByteCount.toNat = pos ∨ n = 0)
    (hend : pos + n ≤ F.length) : Hashes (st.hashed (segment F pos n) n) F ∧
      (st.hashed (segment F pos n) n).sha1ByteCount.toNat = st.sha1ByteCount.toNat + n := by
  have hfits := h.fits
  have hwithin := h.within
  have hlen : (segment F pos n).length = n := Memory.segment_length hend
  have hcount : (st.sha1ByteCount + BitVec.ofInt 32 (n : Int)).toNat = st.sha1ByteCount.toNat + n := by
    rw [BitVec.toNat_add, word_ofInt (by omega), Nat.mod_eq_of_lt (by omega)]
  have hprefix : F.take (st.sha1ByteCount.toNat + n) = F.take st.sha1ByteCount.toNat ++ segment F pos n := by
    rcases hpos with hpos | rfl
    · rw [hpos, Memory.take_append_segment]
    · rw [Memory.segment_zero, List.append_nil, Nat.add_zero]
  refine ⟨⟨?_, ?_, hfits⟩, hcount⟩
  · simp only [State.hashed, hcount, hprefix]
    exact Sha1.update_represents h.mySha1 (by rw [hlen]; omega)
  · simp only [State.hashed, hcount]
    omega

/-- A part that is skipped before anything has been hashed is hashed first. -/
theorem Hashes.skipped {st : State σ ι} (h : Hashes st F) {pos : Nat} (hend : pos ≤ F.length) :
    Hashes (st.skipped F pos) F ∧ (st.skipped F pos).sha1ByteCount.toNat =
      if st.performSha1 = true ∧ st.sha1ByteCount = 0 then pos else st.sha1ByteCount.toNat := by
  by_cases hskip : st.performSha1 = true ∧ st.sha1ByteCount = 0 ∧ 0 < pos
  · have hseg : F.take pos = segment F 0 pos := rfl
    have hzero : st.sha1ByteCount.toNat = 0 := by rw [hskip.2.1]; rfl
    rw [State.skipped_of _ hskip, if_pos ⟨hskip.1, hskip.2.1⟩, hseg]
    obtain ⟨hh, hcount⟩ := h.hashed (n := pos) (.inl hzero) (by omega)
    exact ⟨hh, by rw [hcount, hzero, Nat.zero_add]⟩
  · rw [State.skipped_not _ hskip]
    refine ⟨h, ?_⟩
    split
    next hc =>
      have : pos = 0 := by
        by_contra hpos
        exact hskip ⟨hc.1, hc.2, by omega⟩
      rw [hc.2, this]
      rfl
    next => rfl

/-- The size of the file is published. -/
theorem Expects.publish {has : Word} {size : Nat} (h : has = 0 ∨ has.toNat = size) (hfits : size ≤ 0x7FFFFFFF) :
    publish has size = 0 ∨ (publish has size).toNat = size := by
  simp only [Disk.publish]
  split
  · exact .inr (word_ofInt (by omega))
  · exact h

theorem publish_ne_zero {has : Word} {filemax : Int} (h : has ≠ 0) : publish has filemax ≠ 0 := by
  rw [publish, if_neg h]
  exact h

theorem skipped_fields (st : State σ ι) (G : List Byte) (pos : Nat) : (st.skipped G pos).gzip = st.gzip ∧
    (st.skipped G pos).filepos = st.filepos ∧ (st.skipped G pos).sha1HasToMeasure = st.sha1HasToMeasure ∧
      (st.skipped G pos).blockFile = st.blockFile ∧ (st.skipped G pos).performSha1 = st.performSha1 := by
  simp only [State.skipped]
  split <;> exact ⟨rfl, rfl, rfl, rfl, rfl⟩

theorem measured_fields (st : State σ ι) (G : List Byte) (pos n : Nat) : (st.measured G pos n).gzip = st.gzip ∧
    (st.measured G pos n).filepos = st.filepos ∧ (st.measured G pos n).sha1HasToMeasure = st.sha1HasToMeasure := by
  simp only [State.measured]
  split <;> exact ⟨rfl, rfl, rfl⟩

/-- What a read of a stored file does to the position and to the measurement. -/
structure RawStep (st s : State σ ι) (F : List Byte) (len : Int) : Prop where
  filepos : s.filepos = st.startOf + countAt F.length st.startOf len
  gzip : s.gzip = st.gzip
  expected : s.sha1HasToMeasure = publish st.sha1HasToMeasure F.length
  quiet : st.performSha1 = false → s.sha1ByteCount = st.sha1ByteCount ∧ s.mySha1 = st.mySha1
  hashes : Hashes st F → st.performSha1 = false ∨ st.Aligned ∨ countAt F.length st.startOf len = 0 → Hashes s F
  count : Hashes st F → st.performSha1 = true → st.blockFile = false → st.Aligned ∨ countAt F.length st.startOf len = 0 →
    s.sha1ByteCount.toNat =
      (if st.sha1ByteCount = 0 then st.startOf else st.sha1ByteCount.toNat) + countAt F.length st.startOf len
  blockCount : Hashes st F → st.performSha1 = true → st.blockFile = true →
    s.sha1ByteCount.toNat = if st.sha1ByteCount = 0 then st.startOf else st.sha1ByteCount.toNat

/-- **The step**: one read of a stored file. -/
theorem raw_step (hp : p.Healthy) (read : Reader σ ι) {st : State σ ι} (h : RawOpen st F) (buf : Dest) {len : Int}
    (hreach : st.Reaches F len) : RawStep st (grubReadWith p (grubReadWith p read) st buf len).2.2 F len := by
  obtain ⟨driver, blocks, heq, -⟩ := raw_read hp read h buf hreach
  obtain ⟨-, hle⟩ := h.start
  have hend := countAt_le hle len
  have hmax := h.filemax
  rw [heq]
  generalize hn : countAt F.length st.startOf len = n at *
  generalize hs : st.aimed.served driver blocks (st.startOf + n) = s
  have hperf : s.performSha1 = st.performSha1 := by rw [← hs]; rfl
  have hblock : s.blockFile = st.blockFile := by rw [← hs]; rfl
  have hcount : s.sha1ByteCount = st.sha1ByteCount := by rw [← hs]; rfl
  have hsha : s.mySha1 = st.mySha1 := by rw [← hs]; rfl
  have hpos : s.filepos = st.startOf + n := by rw [← hs]; rfl
  have hgzip : s.gzip = st.gzip := by rw [← hs]; rfl
  have hhas : s.sha1HasToMeasure = publish st.sha1HasToMeasure F.length := by rw [← hs, ← hmax]; rfl
  obtain ⟨hk₀, hk₁, hk₂, hk₃, hk₄⟩ := skipped_fields s F st.startOf
  obtain ⟨hm₀, hm₁, hm₂⟩ := measured_fields (s.skipped F st.startOf) F st.startOf n
  have hbase (hh : Hashes st F) : Hashes s F := ⟨by rw [hsha, hcount]; exact hh.mySha1, by rw [hcount]; exact hh.within, hh.fits⟩
  have hsilent (hoff : st.performSha1 = false) : (s.skipped F st.startOf).measured F st.startOf n = s := by
    rw [State.skipped_not _ (by rw [hperf, hoff]; simp), State.measured_quiet (hperf.trans hoff)]
  -- where the hash stands once the skipped part is in
  have hstands (hh : Hashes st F) (hon : st.performSha1 = true) : (s.skipped F st.startOf).sha1ByteCount.toNat =
      if st.sha1ByteCount = 0 then st.startOf else st.sha1ByteCount.toNat := by
    rw [((hbase hh).skipped hle).2, hperf, hcount]
    simp only [hon, true_and]
  have hdrive (hh : Hashes st F) (hon : st.performSha1 = true) (hb : st.blockFile = false) (ha : st.Aligned ∨ n = 0) :
      Hashes ((s.skipped F st.startOf).measured F st.startOf n) F ∧
        ((s.skipped F st.startOf).measured F st.startOf n).sha1ByteCount.toNat =
          (if st.sha1ByteCount = 0 then st.startOf else st.sha1ByteCount.toNat) + n := by
    rw [State.measured, if_pos ⟨hk₄.trans (hperf.trans hon), hk₃.trans (hblock.trans hb)⟩, ← hstands hh hon]
    refine ((hbase hh).skipped hle).1.hashed ?_ hend
    rcases ha with ha | ha
    · refine .inl ?_
      rw [hstands hh hon]
      rcases ha with ha | ha | ha
      · exact absurd (hb.symm.trans ha) (by decide)
      · rw [if_pos ha]
      · split <;> omega
    · exact .inr ha
  have hlist (hh : Hashes st F) (hb : st.blockFile = true) :
      (s.skipped F st.startOf).measured F st.startOf n = s.skipped F st.startOf := by
    rw [State.measured, if_neg (by rw [hk₃, hblock, hb]; simp)]
  refine ⟨by rw [hn]; exact hm₁.trans (hk₁.trans hpos), hm₀.trans (hk₀.trans hgzip), hm₂.trans (hk₂.trans hhas), fun hoff => ?_,
    fun hh ha => ?_,
    fun hh hon hb ha => ?_, fun hh hon hb => ?_⟩
  · rw [hsilent hoff]
    exact ⟨hcount, hsha⟩
  · rw [hn] at ha
    rcases ha with hoff | ha
    · rw [hsilent hoff]
      exact hbase hh
    · by_cases hon : st.performSha1 = true
      · by_cases hb : st.blockFile = true
        · rw [hlist hh hb]
          exact ((hbase hh).skipped hle).1
        · exact (hdrive hh hon (Bool.eq_false_iff.2 hb) ha).1
      · rw [hsilent (Bool.eq_false_iff.2 hon)]
        exact hbase hh
  · rw [hn] at ha ⊢
    exact (hdrive hh hon hb ha).2
  · rw [hlist hh hb]
    exact hstands hh hon

/-! ## Inside the decompressor -/

/-- Another state of the decompressor. -/
def State.unpacked (st : State σ ι) (gzip : Gzip ι) (errnum : GrubError) : State σ ι := { st with gzip := gzip, errnum := errnum }

/-- A property that the reads of the decompressor keep, and that looks neither at the
decompressor itself nor at `errnum`. -/
structure Lasting (read : Reader σ ι) (I : State σ ι → Prop) : Prop where
  mono : ∀ st buf len, (read st buf len).2.2.faulted = false → st.faulted = false
  read : ∀ st buf len, st.errnum = .none → I st → (read st buf len).2.2.faulted = false →
    I (read st buf len).2.2 ∧ (read st buf len).2.2.errnum = .none
  unpack : ∀ st gzip errnum, gzip.dataOffset = st.gzip.dataOffset → I st → I (State.unpacked st gzip errnum)

section Lasting
variable {read : Reader σ ι} {I : State σ ι → Prop}

theorem Lasting.getByte (h : Lasting read I) {st : State σ ι} (hf : (getByte read st).2.faulted = false) :
    st.faulted = false ∧ (st.errnum = .none → I st → I (getByte read st).2 ∧ (getByte read st).2.errnum = .none) := by
  simp only [Disk.getByte] at hf ⊢
  split
  next hc =>
    rw [if_pos hc] at hf
    refine ⟨h.mono st.bufferUsed _ _ hf, fun he hI => ?_⟩
    obtain ⟨hI', he'⟩ := h.read st.bufferUsed _ _ he (h.unpack st { st.gzip with bufloc := 0 } st.errnum rfl hI) hf
    exact ⟨h.unpack (fillBuffer read st) _ _ rfl (h.unpack _ _ _ rfl hI'), he'⟩
  next hc =>
    rw [if_neg hc] at hf
    exact ⟨hf, fun he hI => ⟨h.unpack st _ st.errnum rfl hI, he⟩⟩

theorem Lasting.runInflate (h : Lasting read I) (t : Inflating ι) : ∀ {st : State σ ι}, (runInflate read t st).faulted = false →
    st.faulted = false ∧ (st.errnum = .none → I st → I (runInflate read t st)) := by
  induction t with
  | getByte next ih =>
    intro st hf
    simp only [Disk.runInflate] at hf ⊢
    obtain ⟨hf', hkeep⟩ := ih _ _ hf
    obtain ⟨hf'', hbyte⟩ := h.getByte hf'
    exact ⟨hf'', fun he hI => hkeep (hbyte he hI).2 (hbyte he hI).1⟩
  | window inflate bad => intro st hf; exact ⟨hf, fun _ hI => h.unpack st _ _ (by exact rfl) hI⟩
  | abandoned inflate => intro st hf; exact ⟨hf, fun _ hI => h.unpack st _ _ (by exact rfl) hI⟩

theorem Lasting.inflateTo (h : Lasting read I) (fuel : Nat) : ∀ {st : State σ ι}, (inflateTo p read fuel st).faulted = false →
    st.faulted = false ∧ (I st → I (inflateTo p read fuel st)) := by
  induction fuel with
  | zero => intro st hf; exact ⟨hf, id⟩
  | succ fuel ih =>
    intro st hf
    simp only [Disk.inflateTo] at hf ⊢
    split
    next hc =>
      rw [if_pos hc] at hf
      obtain ⟨hf', hkeep⟩ := ih hf
      simp only [inflateWindow] at hf' hkeep ⊢
      by_cases he : st.errnum = .none
      · rw [if_pos he] at hf' hkeep ⊢
        obtain ⟨hf'', hrun⟩ := h.runInflate _ hf'
        exact ⟨hf'', fun hI => hkeep (hrun he hI)⟩
      · rw [if_neg he] at hf' hkeep ⊢
        exact ⟨hf', fun hI => hkeep (h.unpack st _ st.errnum rfl hI)⟩
    next hc =>
      rw [if_neg hc] at hf
      exact ⟨hf, id⟩

theorem Lasting.gunzipLoop (h : Lasting read I) {buf : Dest} (fuel : Nat) : ∀ {off len : Nat} {bytes : Nat → Byte} {st : State σ ι},
    (gunzipLoop p read buf fuel off len (bytes, st)).2.faulted = false →
      st.faulted = false ∧ (I st → I (gunzipLoop p read buf fuel off len (bytes, st)).2) := by
  induction fuel with
  | zero => intro off len bytes st hf; exact ⟨hf, id⟩
  | succ fuel ih =>
    intro off len bytes st hf
    simp only [Disk.gunzipLoop] at hf ⊢
    split
    next hc =>
      rw [if_pos hc] at hf
      obtain ⟨hf', hkeep⟩ := ih hf
      obtain ⟨hf'', hrun⟩ := h.inflateTo _ hf'
      exact ⟨hf'', fun hI => hkeep (h.unpack _ _ _ rfl (hrun hI))⟩
    next hc =>
      rw [if_neg hc] at hf
      exact ⟨hf, id⟩

end Lasting

theorem RawStep.aligned {st s : State σ ι} {len : Int} (h : RawStep st s F len) (hraw : RawOpen st F) (hs : RawOpen s F)
    (hblock : s.blockFile = st.blockFile) (hh : Hashes st F) (hon : st.performSha1 = true) (ha : st.Aligned) : s.Aligned := by
  by_cases hb : st.blockFile = true
  · exact .inl (hblock.trans hb)
  · have hle := countAt_le hraw.start.2 len
    have hmax := hs.filemax
    have hpos := h.filepos
    have hcount := h.count hh hon (Bool.eq_false_iff.2 hb) (.inl ha)
    refine .inr (.inr ?_)
    rw [hcount, State.startOf, saneFilepos_of_le (by omega) (by omega), hpos]
    rcases ha with ha | ha | ha
    · exact absurd ha hb
    · rw [if_pos ha]; omega
    · split <;> omega

/-- The decompressor reads the file `F` in order, and what it reads is measured. -/
structure Fetching (F : List Byte) (st : State σ ι) : Prop where
  raw : RawFile st F
  on : st.performSha1 = true
  measures : Measures st F
  aligned : st.Aligned
  published : st.sha1HasToMeasure ≠ 0

theorem fetching_lasting (hp : p.Healthy) : Lasting (grubReadWith p (grubReadWith p noRead)) (fun st : State σ ι => Fetching F st) where
  mono st buf len hf := (grubReadWith_agree (grubReadWith_agree noRead_agree) st buf len hf).1
  read st buf len he h hf := by
    have hraw : RawOpen st F := ⟨h.raw, he⟩
    have hreach := hraw.reaches hf
    have hraw' := hraw.read hp noRead buf hreach
    have hstep := raw_step hp noRead hraw buf hreach
    have hkeep := grubReadWith_keeps (p := p) (grubReadWith_keeps (p := p) noRead_keeps) st buf len
    have hbounds := h.measures.fits
    refine ⟨⟨hraw'.toRawFile, (congrArg Settings.performSha1 hkeep).trans h.on,
      ⟨hstep.hashes h.measures.toHashes (.inr (.inl h.aligned)), ?_⟩,
      hstep.aligned hraw hraw' (congrArg Settings.blockFile hkeep) h.measures.toHashes h.on h.aligned, ?_⟩, hraw'.errnum⟩
    · rw [State.Expects, hstep.expected]
      exact Expects.publish h.measures.expected hbounds
    · rw [hstep.expected]
      exact publish_ne_zero h.published
  unpack st gzip errnum _ h :=
    ⟨⟨h.raw.measureKernel, h.raw.compressedFile, h.raw.filemax, h.raw.stored.blocks, h.raw.stored.driver⟩, h.on,
      ⟨⟨h.measures.mySha1, h.measures.within, h.measures.fits⟩, h.measures.expected⟩, h.aligned, h.published⟩

/-- A compressed file, stored as `F`, is open. -/
structure PackedOpen (st : State σ ι) (F : List Byte) : Prop where
  measureKernel : st.measureKernel = false
  compressedFile : st.compressedFile = true
  published : st.sha1HasToMeasure ≠ 0
  raw : RawFile st.inside F

/-- Reads that keep to the order in which the file is hashed: of a plain file, the next
bytes; of a compressed one, nothing before the window, and its beginning first. -/
def State.InOrder (st : State σ ι) (len : Int) : Prop :=
  st.measureKernel = true ∨
    if st.compressedFile then
      (st.sha1ByteCount = 0 → st.startOf = 0) ∧
        (st.blockFile = true ∨ st.sha1ByteCount = 0 ∨
          st.gzip.savedFilepos ≤ saneFilepos st.filepos st.filemax + wsize)
    else st.Aligned ∨ st.aimed.saneLen len = 0

theorem PackedOpen.entered {st : State σ ι} (h : PackedOpen st F) (hon : st.performSha1 = true) (hm : Measures st F)
    (ha : st.inside.Aligned)
    (horder : st.blockFile = true ∨ st.sha1ByteCount = 0 ∨ st.gzip.savedFilepos ≤ st.filepos + wsize) :
    Fetching F (st.gunzipEntered p) := by
  have hinside : Fetching F st.inside :=
    ⟨h.raw, hon, ⟨⟨hm.mySha1, hm.within, hm.fits⟩, hm.expected⟩, ha, h.published⟩
  rw [State.gunzipEntered]
  split
  next hback =>
    refine ⟨⟨h.raw.measureKernel, h.raw.compressedFile, h.raw.filemax, h.raw.stored.blocks, h.raw.stored.driver⟩, hon,
      ⟨⟨hm.mySha1, hm.within, hm.fits⟩, hm.expected⟩, ?_, h.published⟩
    rcases horder with hb | hc | hw
    · exact .inl hb
    · exact .inr (.inl hc)
    · exact absurd hback (Int.not_lt.2 hw)
  next => exact hinside

theorem PackedOpen.left {st : State σ ι} (h : Fetching F st) :
    PackedOpen st.gunzipLeft F ∧ Measures st.gunzipLeft F ∧ st.gunzipLeft.inside.Aligned :=
  ⟨⟨h.raw.measureKernel, rfl, h.published,
    ⟨h.raw.measureKernel, rfl, h.raw.filemax, h.raw.stored.blocks, h.raw.stored.driver⟩⟩,
    ⟨⟨h.measures.mySha1, h.measures.within, h.measures.fits⟩, h.measures.expected⟩, h.aligned⟩

theorem PackedOpen.aimed {st : State σ ι} (h : PackedOpen st F) : PackedOpen st.aimed F :=
  ⟨h.measureKernel, h.compressedFile, publish_ne_zero h.published,
    ⟨h.raw.measureKernel, rfl, h.raw.filemax, h.raw.stored.blocks, h.raw.stored.driver⟩⟩

/-- The size expected stays once it is published. -/
theorem Measures.aimed {st : State σ ι} (h : Measures st F) (hpub : st.sha1HasToMeasure ≠ 0 ∨ st.filemax = F.length) :
    Measures st.aimed F := by
  refine ⟨⟨h.mySha1, h.within, h.fits⟩, ?_⟩
  by_cases hhas : st.sha1HasToMeasure = 0
  · rcases hpub with hpub | hpub
    · exact absurd hhas hpub
    · rw [State.Expects, State.aimed, hpub]
      exact Expects.publish h.expected h.fits
  · have hsame : st.aimed.sha1HasToMeasure = st.sha1HasToMeasure := if_neg hhas
    rw [State.Expects, hsame]
    exact h.expected

/-- **The step**: one read of a compressed file. -/
theorem packed_step (hp : p.Healthy) {st : State σ ι} (h : PackedOpen st F) (hon : st.performSha1 = true) (hm : Measures st F)
    (ha : st.inside.Aligned) {buf : Dest} {len : Int} (horder : st.InOrder len)
    (hf : (grubRead p st buf len).2.2.faulted = false) :
    PackedOpen (grubRead p st buf len).2.2 F ∧ Measures (grubRead p st buf len).2.2 F ∧
      (grubRead p st buf len).2.2.inside.Aligned := by
  rcases horder with hmem | horder
  · exact absurd (h.measureKernel.symm.trans hmem) (by decide)
  rw [if_pos h.compressedFile] at horder
  obtain ⟨hfirst, hback⟩ := horder
  have hskip : measureSkipped (grubReadWith p (grubReadWith p noRead)) st.aimed = st.aimed := by
    rw [measureSkipped, if_neg]
    rintro ⟨-, hc, hpos⟩
    have hzero : (st.aimed.filepos).toNat = 0 := hfirst hc
    omega
  simp only [grubRead, grubReadWith] at hf hskip ⊢
  rw [if_neg (by simp [State.aimed, h.measureKernel])] at hf ⊢
  split
  next hover => rw [if_pos hover] at hf; cases hf
  next hover =>
    rw [if_neg hover, hskip] at hf
    rw [hskip]
    simp only [fileRead, h.aimed.compressedFile, if_true, gunzipRead] at hf ⊢
    have hentered : Fetching F (st.aimed.gunzipEntered p) :=
      h.aimed.entered hon (hm.aimed (.inl h.published)) ha hback
    exact PackedOpen.left (((fetching_lasting hp).gunzipLoop _ hf).2 hentered)

/-- A read from the copy of a kernel. -/
theorem memory_read {read : Reader σ ι} (st : State σ ι) (hm : st.measureKernel = true) (buf : Dest) (len : Int) :
    grubReadWith p read st buf len = copyRead st.aimed buf len := by
  simp only [grubReadWith]
  exact if_pos hm

/-- How a file is read: stored plain, unpacked, or from the copy of a kernel. -/
inductive Reading (F : List Byte) (st : State σ ι) : Prop where
  | stored (open' : RawOpen st F)
  | packed (open' : PackedOpen st F) (aligned : st.inside.Aligned)
  | memory (measureKernel : st.measureKernel = true) (published : st.sha1HasToMeasure ≠ 0 ∨ st.filemax = F.length)
    (content : st.rawFile = F)

theorem PackedOpen.rawFile {st : State σ ι} (h : PackedOpen st F) : st.rawFile = F := by
  have hmax : st.gzip.filemax = F.length := h.raw.filemax
  by_cases hb : st.blockFile = true
  · rw [State.rawFile, if_pos hb, State.rawSize, if_pos h.compressedFile, hmax, Int.toNat_natCast]
    exact (h.raw.stored.blocks hb).content.symm
  · rw [State.rawFile, if_neg hb]
    exact (h.raw.stored.driver (Bool.eq_false_iff.2 hb)).2

theorem Reading.rawFile {st : State σ ι} (h : Reading F st) : st.rawFile = F := by
  cases h with
  | stored hopen => exact hopen.rawFile
  | packed hopen _ => exact hopen.rawFile
  | memory _ _ hcontent => exact hcontent

/-- The file `F` is open and measured. -/
structure Measured (F : List Byte) (st : State σ ι) : Prop where
  reading : Reading F st
  on : st.performSha1 = true
  measures : Measures st F

/-- A read in order. -/
theorem Measured.read (hp : p.Healthy) {st : State σ ι} (h : Measured F st) {buf : Dest} {len : Int} (horder : st.InOrder len)
    (hf : (grubRead p st buf len).2.2.faulted = false) : Measured F (grubRead p st buf len).2.2 := by
  have hon : (grubRead p st buf len).2.2.performSha1 = true :=
    (congrArg Settings.performSha1 (grubRead_keeps (p := p) st buf len)).trans h.on
  cases h.reading with
  | stored hopen =>
    have hreach := hopen.reaches hf
    have hstep := raw_step hp (grubReadWith p noRead) hopen buf hreach
    refine ⟨.stored (hopen.read hp _ buf hreach), hon, hstep.hashes h.measures.toHashes (.inr ?_), ?_⟩
    · rcases horder with hmem | horder
      · exact absurd (hopen.measureKernel.symm.trans hmem) (by decide)
      · rw [if_neg (by simp [hopen.compressedFile]), hopen.saneLen] at horder
        exact horder.imp id Int.ofNat_eq_zero.1
    · have hexp : (grubRead p st buf len).2.2.sha1HasToMeasure = publish st.sha1HasToMeasure F.length := hstep.expected
      rw [State.Expects, hexp]
      exact Expects.publish h.measures.expected h.measures.fits
  | packed hopen haligned =>
    obtain ⟨hopen', hmeasures, haligned'⟩ := packed_step hp hopen h.on h.measures haligned horder hf
    exact ⟨.packed hopen' haligned', hon, hmeasures⟩
  | memory hm hpub hcontent =>
    have haimed := h.measures.aimed hpub
    refine ⟨.memory ?_ ?_ ?_, hon, ?_⟩
    · exact (congrArg Settings.measureKernel (grubRead_keeps (p := p) st buf len)).trans hm
    · rw [grubRead, memory_read _ hm]
      exact hpub.imp publish_ne_zero id
    · rw [grubRead, memory_read _ hm]
      exact hcontent
    · rw [grubRead, memory_read _ hm]
      exact ⟨⟨haimed.mySha1, haimed.within, haimed.fits⟩, haimed.expected⟩

theorem Measured.moved {st : State σ ι} (h : Measured F st) (offset : Int) : Measured F { st with filepos := offset } := by
  refine ⟨?_, h.on, ⟨h.measures.mySha1, h.measures.within, h.measures.fits⟩, h.measures.expected⟩
  cases h.reading with
  | stored hopen => exact .stored (hopen.seek offset)
  | packed hopen haligned =>
    exact .packed ⟨hopen.measureKernel, hopen.compressedFile, hopen.published,
      ⟨hopen.raw.measureKernel, rfl, hopen.raw.filemax, hopen.raw.stored.blocks, hopen.raw.stored.driver⟩⟩ haligned
  | memory hm hpub hcontent => exact .memory hm hpub hcontent

/-- A seek. -/
theorem Measured.seek {st : State σ ι} (h : Measured F st) (offset : Int) : Measured F (grubSeek st offset).2 := by
  simp only [grubSeek]
  split
  · exact h
  · exact h.moved offset

/-! ## Opening -/

theorem publish_pos {has : Word} {n : Nat} (hn : 0 < n) (hfits : n ≤ 0x7FFFFFFF) : publish has n ≠ 0 := by
  rw [publish]
  split
  · intro hzero
    have := word_ofInt (n := n) (by omega)
    rw [hzero] at this
    simp at this
    omega
  · assumption

theorem Unmeasured.hashes {st : State σ ι} (h : Unmeasured st) (hfits : F.length ≤ 0x7FFFFFFF) : Measures st F := by
  have hzero : st.sha1ByteCount.toNat = 0 := by rw [h.byteCount]; rfl
  exact ⟨⟨by rw [hzero]; exact h.mySha1, by omega, hfits⟩, .inl h.hasToMeasure⟩

/-- Reads with measuring off. -/
theorem Reads.quiet (hp : p.Healthy) {st s : State σ ι} (h : Reads p st s) (hst : RawOpen st F) (hf : s.faulted = false)
    (hoff : st.performSha1 = false) (hfits : F.length ≤ 0x7FFFFFFF) :
    s.mySha1 = st.mySha1 ∧ s.sha1ByteCount = st.sha1ByteCount ∧ (st.Expects F → s.Expects F) := by
  induction h with
  | refl => exact ⟨rfl, rfl, id⟩
  | @read s h bytes len ih =>
    have hbefore := (grubRead_agree _ _ _ hf).1
    have hopen := h.rawOpen hp hst hbefore
    have hstep := raw_step hp (grubReadWith p noRead) hopen (.local bytes) (hopen.reaches hf)
    have hquiet := hstep.quiet ((congrArg Settings.performSha1 h.settings).trans hoff)
    obtain ⟨hsha, hcount, hexp⟩ := ih hbefore
    refine ⟨hquiet.2.trans hsha, hquiet.1.trans hcount, fun he => ?_⟩
    have hpub : (grubRead p s (.local bytes) len).2.2.sha1HasToMeasure = publish s.sha1HasToMeasure F.length := hstep.expected
    rw [State.Expects, hpub]
    exact Expects.publish (hexp he) hfits
  | seek _ offset ih => exact ih hf

/-- Reads of a block list, or from memory. -/
theorem Reads.measured (hp : p.Healthy) {st s : State σ ι} (h : Reads p st s) (hst : Measured F st) (hf : s.faulted = false)
    (hway : st.measureKernel = true ∨ st.blockFile = true ∧ st.compressedFile = false) : Measured F s := by
  induction h with
  | refl => exact hst
  | @read s h bytes len ih =>
    have hbefore := (grubRead_agree _ _ _ hf).1
    refine (ih hbefore).read hp ?_ hf
    rcases hway with hm | ⟨hb, hc⟩
    · exact .inl ((congrArg Settings.measureKernel h.settings).trans hm)
    · refine .inr ?_
      have hplain : s.compressedFile = false := (congrArg Settings.compressedFile h.settings).trans hc
      rw [if_neg (by rw [hplain]; decide)]
      exact .inl (.inl ((congrArg Settings.blockFile h.settings).trans hb))
  | seek _ offset ih => exact (ih hf).moved offset

/-- The trailer of a compressed file has been read. -/
theorem RawOpen.trailer (hp : p.Healthy) {h : State σ ι} (hopen : RawOpen h F) (hfits : F.length ≤ 0x7FFFFFFF)
    (hcount : (h.trailer p).1 = 8) (hf : (h.trailer p).2.2.faulted = false) :
    RawOpen (h.trailer p).2.2 F ∧ (h.trailer p).2.2.sha1HasToMeasure ≠ 0 ∧ 0 < F.length := by
  have hreach := hopen.atTrailer.reaches hf
  obtain ⟨driver, blocks, heq, -⟩ := raw_read hp (grubReadWith p noRead) hopen.atTrailer
    (.local fun _ => 0) hreach
  have hlen : countAt F.length h.atTrailer.startOf 8 = 8 := by
    rw [State.trailer, grubRead, heq] at hcount
    exact Int.ofNat.inj hcount
  have hle := countAt_le hopen.atTrailer.start.2 8
  have hstep := raw_step hp (grubReadWith p noRead) hopen.atTrailer (.local fun _ => 0) hreach
  have hexp : (h.trailer p).2.2.sha1HasToMeasure = publish h.atTrailer.sha1HasToMeasure F.length := hstep.expected
  refine ⟨hopen.atTrailer.read hp _ _ hreach, ?_, by omega⟩
  rw [hexp]
  exact publish_pos (by omega) hfits

theorem RawOpen.unpacking {st : State σ ι} (h : RawOpen st F) (hpub : st.sha1HasToMeasure ≠ 0) (size : Int) :
    PackedOpen (st.unpacking p size) F :=
  ⟨h.measureKernel, rfl, hpub, ⟨h.measureKernel, rfl, h.filemax, h.stored.blocks, h.stored.driver⟩⟩

/-- The header of a file that a driver has opened, looked at with measuring off. -/
theorem header_quiet (hp : p.Healthy) {st s : State σ ι} (hst : RawOpen st F) (hoff : st.performSha1 = false)
    (hfits : F.length ≤ 0x7FFFFFFF) (h : gunzipTestHeader p st = (true, s)) (hf : s.faulted = false) :
    s.mySha1 = st.mySha1 ∧ s.sha1ByteCount = st.sha1ByteCount ∧ (st.Expects F → s.Expects F) ∧ s.filepos = 0 ∧
      s.kernelFilesize = st.kernelFilesize ∧
      (RawOpen s F ∨ PackedOpen s F) ∧ (s.compressedFile = true → 0 < F.length) := by
  rcases testHeader_cases h with ⟨t, hreads, rfl⟩ | ⟨hd, size, hreads, hcount, rfl⟩
  · obtain ⟨hsha, hbytes, hexp⟩ := hreads.quiet hp hst hf hoff hfits
    exact ⟨hsha, hbytes, hexp, rfl, congrArg Settings.kernelFilesize hreads.settings,
      .inl (hreads.rawOpen hp hst hf).atStart, fun hc =>
        absurd ((hreads.rawOpen hp hst hf).atStart.compressedFile.symm.trans hc) (by decide)⟩
  · have hft : (hd.trailer p).2.2.faulted = false := hf
    have hfh : hd.faulted = false := (grubRead_agree _ _ _ hft).1
    have hopen := hreads.rawOpen hp hst hfh
    obtain ⟨hopen', hpub, hlen⟩ := hopen.trailer hp hfits hcount hft
    have hread := reads_trailer p hd
    have hoffh : hd.atTrailer.performSha1 = false := (congrArg Settings.performSha1 hreads.settings).trans hoff
    obtain ⟨hsha, hbytes, hexp⟩ := hreads.quiet hp hst hfh hoff hfits
    obtain ⟨hsha', hbytes', hexp'⟩ := hread.quiet hp hopen.atTrailer hft hoffh hfits
    have hsettings := hreads.settings
    have hsettings' := hread.settings
    exact ⟨hsha'.trans hsha, hbytes'.trans hbytes, fun he => hexp' (hexp he), rfl,
      (congrArg Settings.kernelFilesize hsettings').trans (congrArg Settings.kernelFilesize hsettings),
      .inr (hopen'.unpacking hpub size),
      fun _ => hlen⟩

theorem saneFilepos_zero (filemax : Int) : (saneFilepos 0 filemax).toNat = 0 := by
  simp only [saneFilepos]
  split <;> omega

theorem Measured.copyPrepared {st : State σ ι} (hopen : RawOpen st F ∨ PackedOpen st F) (hon : st.performSha1 = true)
    (hsha : Sha1.Represents st.mySha1 []) (hcount : st.sha1ByteCount = 0) (hfits : F.length ≤ 0x7FFFFFFF)
    (hsize : st.kernelFilesize = F.length) (hpos : st.compressedFile = true → 0 < F.length) : Measured F st.copyPrepared := by
  have hzero : st.sha1ByteCount.toNat = 0 := by rw [hcount]; rfl
  have hexp : st.copyPrepared.sha1HasToMeasure.toNat = F.length := by
    have hhas : st.copyPrepared.sha1HasToMeasure = BitVec.ofInt 32 st.kernelFilesize := rfl
    rw [hhas, hsize]
    exact word_ofInt (by omega)
  have hhashes : Hashes st.copyPrepared F := by
    have hcount' : st.copyPrepared.sha1ByteCount.toNat = 0 := hzero
    exact ⟨by rw [hcount']; exact hsha, by omega, hfits⟩
  refine ⟨?_, hon, hhashes, .inr hexp⟩
  rcases hopen with h | h
  · exact .stored ⟨⟨rfl, h.compressedFile, h.filemax, h.stored.blocks, h.stored.driver⟩, h.errnum⟩
  · have hpub : st.copyPrepared.sha1HasToMeasure ≠ 0 := by
      intro hno
      have := hpos h.compressedFile
      have hzero' : st.copyPrepared.sha1HasToMeasure.toNat = 0 := by rw [hno]; rfl
      omega
    exact .packed ⟨rfl, h.compressedFile, hpub, ⟨rfl, rfl, h.raw.filemax, h.raw.stored.blocks, h.raw.stored.driver⟩⟩
      (.inr (.inl hcount))

theorem Measured.copied {st : State σ ι} (h : Measured F st) (hm : st.measureKernel = false) (addr : Nat) (bytes : Nat → Byte) :
    Measured F (st.loaded addr bytes).copied := by
  refine ⟨.memory rfl ?_ h.reading.rawFile, h.on, ⟨h.measures.mySha1, h.measures.within, h.measures.fits⟩,
    h.measures.expected⟩
  cases h.reading with
  | stored hopen => exact .inr hopen.filemax
  | packed hopen _ => exact .inl hopen.published
  | memory hm' _ _ => exact absurd (hm.symm.trans hm') (by decide)

/-- What is stored in memory does not bear on the file. -/
theorem Measured.loaded {st : State σ ι} (h : Measured F st) (addr : Nat) (bytes : Nat → Byte) : Measured F (st.loaded addr bytes) := by
  refine ⟨?_, h.on, ⟨h.measures.mySha1, h.measures.within, h.measures.fits⟩, h.measures.expected⟩
  cases h.reading with
  | stored hopen => exact .stored (hopen.loaded addr bytes)
  | packed hopen haligned =>
    exact .packed ⟨hopen.measureKernel, hopen.compressedFile, hopen.published,
      ⟨hopen.raw.measureKernel, rfl, hopen.raw.filemax, hopen.raw.stored.blocks, hopen.raw.stored.driver⟩⟩ haligned
  | memory hm hpub hcontent => exact .memory hm hpub hcontent

/-- The copy of a kernel is measured, and later reads are served from it. -/
theorem copyKernel_measured (hp : p.Healthy) {st : State σ ι} (h : Measured F st.copyPrepared)
    (hcount : st.sha1ByteCount = 0) (hf : (copyKernel p st).faulted = false) : Measured F (copyKernel p st) := by
  have horder : st.copyPrepared.InOrder st.copyPrepared.copyLength := by
    refine .inr ?_
    split
    · exact ⟨fun _ => saneFilepos_zero _, .inr (.inl hcount)⟩
    · exact .inl (.inr (.inl hcount))
  have hread : Measured F (grubRead p st.copyPrepared (st.copyPrepared.physical st.copyPrepared.kernelRealAddr)
      st.copyPrepared.copyLength).2.2 := h.read hp horder hf
  have hm : (grubRead p st.copyPrepared (st.copyPrepared.physical st.copyPrepared.kernelRealAddr)
      st.copyPrepared.copyLength).2.2.measureKernel = false :=
    congrArg Settings.measureKernel (grubRead_keeps (p := p) st.copyPrepared _ _)
  exact hread.copied hm _ _

/-- The end of `grub_open`, behind a driver. -/
theorem openMeasured_measured (hp : p.Healthy) {st st' : State σ ι} (h : Reached st) (hon : st.performSha1 = true)
    (hsha : Sha1.Represents st.mySha1 []) (hcount : st.sha1ByteCount = 0)
    (hhas : st.measureKernel = true ∨ st.sha1HasToMeasure = 0) (heq : openMeasured p st = (true, st'))
    (hf : st'.faulted = false) : Measured st.file.bytes st' := by
  have hfits := st.file.fits
  simp only [openMeasured, if_pos hon] at heq
  generalize hr : gunzipTestHeader p st.probing = r at heq
  obtain ⟨temp, s⟩ := r
  obtain ⟨rfl, hs⟩ := Prod.mk.inj heq
  have hfs : s.faulted = false := by
    by_cases hm : st.measureKernel = true
    · rw [if_pos hm] at hs
      exact (copyKernel_agree (p := p) (s.probed st.measureKernel) (hs ▸ hf)).1
    · rw [if_neg hm] at hs
      rw [← hs] at hf
      exact hf
  obtain ⟨hsha', hcount', hexp, -, hsize, hopen, hpos⟩ :=
    header_quiet hp (h.probing.rawOpen rfl) rfl hfits hr hfs
  have hcounts : s.sha1ByteCount = 0 := hcount'.trans hcount
  have hshas : Sha1.Represents s.mySha1 [] := by rw [hsha']; exact hsha
  have hopen' (m : Bool) (hm : m = false) : RawOpen (s.probed m) st.file.bytes ∨ PackedOpen (s.probed m) st.file.bytes := by
    subst hm
    refine hopen.imp (fun ho => ho.probed) fun ho => ?_
    exact ⟨rfl, ho.compressedFile, ho.published, ⟨rfl, rfl, ho.raw.filemax, ho.raw.stored.blocks, ho.raw.stored.driver⟩⟩
  by_cases hm : st.measureKernel = true
  · rw [if_pos hm] at hs
    have hprobing : st.probing.kernelFilesize = st.filemax := if_pos hm
    have hprepared : Measured st.file.bytes (s.probed false).copyPrepared :=
      Measured.copyPrepared (hopen' false rfl) rfl hshas hcounts hfits ((hsize.trans hprobing).trans h.filemax) hpos
    rw [← hs] at hf ⊢
    exact copyKernel_measured hp hprepared hcounts hf
  · have hm' := Bool.eq_false_iff.2 hm
    rw [if_neg hm] at hs
    rw [← hs, hm']
    have hexpects : (s.probed false).Expects st.file.bytes := hexp (.inl (hhas.resolve_left hm))
    have hzero : s.sha1ByteCount.toNat = 0 := by rw [hcounts]; rfl
    have hhashes : Hashes (s.probed false) st.file.bytes := by
      have hz : (s.probed false).sha1ByteCount.toNat = 0 := hzero
      exact ⟨by rw [hz]; exact hshas, by omega, hfits⟩
    refine ⟨?_, rfl, hhashes, hexpects⟩
    rcases hopen' false rfl with ho | ho
    · exact .stored ho
    · exact .packed ho (.inr (.inl hcounts))

/-- The links that a walk reads add to those read before. -/
theorem runWalk_links (walk : DirWalk σ) : ∀ st : State σ ι, ∃ l, (runWalk p walk st).2.links = st.links ++ l := by
  induction walk with
  | opened file fsmax driver => intro st; exact ⟨[], (List.append_nil _).symm⟩
  | failed errnum filepos filemax driver => intro st; exact ⟨[], (List.append_nil _).symm⟩
  | readLink link linkbuf driver next ih =>
    intro st
    have hkeep := congrArg Settings.links
      (grubRead_keeps (p := p) (st.onLink link driver) (.local linkbuf) link.bytes.length)
    simp only [runWalk]
    generalize grubRead p (st.onLink link driver) (.local linkbuf) link.bytes.length = r at hkeep
    obtain ⟨l, hl⟩ := ih r.1 r.2.1 r.2.2.driver r.2.2.atStart
    refine ⟨[link.bytes.length] ++ l, hl.trans ?_⟩
    have hlink : r.2.2.atStart.links = st.links ++ [link.bytes.length] := hkeep
    rw [hlink, List.append_assoc]

/-- A walk that reads no link, or reads them from memory, leaves the measurement alone. -/
theorem runWalk_unmeasured (walk : DirWalk σ) : ∀ {st s : State σ ι}, runWalk p walk st = (true, s) →
    (st.measureKernel = true ∨ s.links = []) →
    s.mySha1 = st.mySha1 ∧ s.sha1ByteCount = st.sha1ByteCount ∧ (s.links = [] → s.sha1HasToMeasure = st.sha1HasToMeasure) := by
  induction walk with
  | opened file fsmax driver =>
    intro st s h _
    obtain rfl := (congrArg Prod.snd h).symm
    exact ⟨rfl, rfl, fun _ => rfl⟩
  | failed errnum filepos filemax driver => intro st s h; cases h
  | readLink link linkbuf driver next ih =>
    intro st s h hway
    simp only [runWalk] at h
    have hkeep := grubRead_keeps (p := p) (st.onLink link driver) (.local linkbuf) link.bytes.length
    have hlinks : s.links ≠ [] := by
      generalize grubRead p (st.onLink link driver) (.local linkbuf) link.bytes.length = r at h hkeep
      obtain ⟨l', hl'⟩ := runWalk_links (p := p) (next r.1 r.2.1 r.2.2.driver) r.2.2.atStart
      have hlink : r.2.2.atStart.links = st.links ++ [link.bytes.length] := congrArg Settings.links hkeep
      rw [h, hlink] at hl'
      intro hnil
      have := congrArg List.length (hl'.symm.trans hnil)
      simp at this
    have hm := hway.resolve_right hlinks
    have hread : grubRead p (st.onLink link driver) (.local linkbuf) link.bytes.length =
        copyRead (st.onLink link driver).aimed (.local linkbuf) link.bytes.length :=
      memory_read (st.onLink link driver) hm _ _
    rw [hread] at h
    obtain ⟨hsha, hcount, -⟩ := ih _ _ _ h (.inl hm)
    exact ⟨hsha, hcount, fun hnil => absurd hnil hlinks⟩

theorem testHeader_links (st : State σ ι) {st' : State σ ι} (h : gunzipTestHeader p st = (true, st')) : st'.links = st.links := by
  rcases testHeader_cases h with ⟨t, hreads, rfl⟩ | ⟨hd, size, hreads, -, rfl⟩
  · exact congrArg Settings.links hreads.settings
  · have hread := reads_trailer p hd
    exact (congrArg Settings.links hread.settings).trans (congrArg Settings.links hreads.settings)

theorem openMeasured_links {st st' : State σ ι} (hon : st.performSha1 = true) (h : openMeasured p st = (true, st')) :
    st'.links = st.links := by
  simp only [openMeasured, if_pos hon] at h
  generalize hr : gunzipTestHeader p st.probing = r at h
  obtain ⟨temp, s⟩ := r
  obtain ⟨rfl, hs⟩ := Prod.mk.inj h
  have hheader : s.links = st.links := testHeader_links st.probing hr
  have hprobed : (s.probed st.measureKernel).links = st.links := hheader
  rw [← hs]
  split
  · exact (copyKernel_kept _).2.2.trans hprobed
  · exact hprobed

theorem Measured.atTrailer {st : State σ ι} (h : Measured F st) (hc : st.compressedFile = false) : Measured F st.atTrailer := by
  refine ⟨?_, h.on, ⟨h.measures.mySha1, h.measures.within, h.measures.fits⟩, h.measures.expected⟩
  cases h.reading with
  | stored hopen => exact .stored hopen.atTrailer
  | packed hopen _ => exact absurd (hc.symm.trans hopen.compressedFile) (by decide)
  | memory hm hpub hcontent => exact .memory hm hpub hcontent

/-- A block list turns out to be a compressed file. -/
theorem Measured.unpacking {st : State σ ι} (h : Measured F st) (hc : st.compressedFile = false)
    (hpub : st.sha1HasToMeasure ≠ 0) (hb : st.blockFile = true) (size : Int) : Measured F (st.unpacking p size) := by
  refine ⟨?_, h.on, ⟨h.measures.mySha1, h.measures.within, h.measures.fits⟩, h.measures.expected⟩
  cases h.reading with
  | stored hopen => exact .packed (hopen.unpacking hpub size) (.inl hb)
  | packed hopen _ => exact absurd (hc.symm.trans hopen.compressedFile) (by decide)
  | memory hm _ hcontent =>
    refine .memory hm (.inl hpub) ?_
    have hplain : st.rawSize = st.filemax := if_neg (by rw [hc]; decide)
    have hsize : (st.unpacking p size).rawSize = st.rawSize := by rw [hplain]; rfl
    rw [← hcontent, State.rawFile, State.rawFile, hsize]
    rfl

/-- The header of a block list. -/
theorem blocks_measured (hp : p.Healthy) {st st' : State σ ι} (h : OnBlocks st) (hu : Unmeasured st) (hon : st.performSha1 = true)
    (heq : gunzipTestHeader p st = (true, st')) (hf : st'.faulted = false) : Measured st.rawFile st' := by
  have hpos := h.positive
  have hlen := h.size
  have hsize : st.filemax = st.rawFile.length := by omega
  have hfits : st.rawFile.length ≤ 0x7FFFFFFF := by have := h.fits; simp only [maxint] at this; omega
  have hreading : Reading st.rawFile st := by
    by_cases hm : st.measureKernel = true
    · exact .memory hm (.inr hsize) rfl
    · exact .stored (h.rawOpen (Bool.eq_false_iff.2 hm))
  have hstart : Measured st.rawFile st := ⟨hreading, hon, hu.hashes hfits⟩
  have hway : st.measureKernel = true ∨ st.blockFile = true ∧ st.compressedFile = false := .inr ⟨h.blockFile, h.compressedFile⟩
  rcases testHeader_cases heq with ⟨s, hreads, rfl⟩ | ⟨hd, size, hreads, hcount, rfl⟩
  · exact (hreads.measured hp hstart hf hway).moved 0
  · have hft : (hd.trailer p).2.2.faulted = false := hf
    have hhd := hreads.measured hp hstart (grubRead_agree _ _ _ hft).1 hway
    have hread := reads_trailer p hd
    have hblock : hd.blockFile = true := (congrArg Settings.blockFile hreads.settings).trans h.blockFile
    have hplain : hd.compressedFile = false := (congrArg Settings.compressedFile hreads.settings).trans h.compressedFile
    have hmax : hd.filemax = st.rawFile.length := (congrArg Settings.filemax hreads.settings).trans hsize
    have hmeasured := hread.measured hp (hhd.atTrailer hplain) hft (.inr ⟨hblock, hplain⟩)
    refine hmeasured.unpacking ((congrArg Settings.compressedFile hread.settings).trans hplain) ?_
      ((congrArg Settings.blockFile hread.settings).trans hblock) size
    cases hhd.reading with
    | stored hopen => exact (hopen.trailer hp hfits hcount hft).2.1
    | packed hopen _ => exact absurd (hplain.symm.trans hopen.compressedFile) (by decide)
    | memory hm _ _ =>
      have hcopy : hd.trailer p = copyRead hd.atTrailer.aimed (.local fun _ => 0) 8 :=
        memory_read hd.atTrailer hm _ _
      have hpublished : (hd.trailer p).2.2.sha1HasToMeasure = publish hd.sha1HasToMeasure hd.filemax := by
        rw [hcopy]
        rfl
      rw [hpublished, hmax]
      exact publish_pos (by omega) hfits

/-- **A measured file has been opened**: nothing but its own bytes has been hashed,
unless the driver has read a link as a file. -/
theorem OpenedFrom.measured (hp : p.Healthy) {st st' : State σ ι} (h : OpenedFrom p st st') (hon : st.performSha1 = true)
    (hf : st'.faulted = false) (hlinks : st.measureKernel = true ∨ st'.links = []) : Measured st'.rawFile st' := by
  have hany {F : List Byte} (hm : Measured F st') : Measured st'.rawFile st' := hm.reading.rawFile.symm ▸ hm
  cases h with
  | path w s walk ready unmeasured filepos flags walked opened =>
    have hreached := runWalk_reached hp walk ready walked
    have hwalk := (walked_flags walked).trans flags
    have hons : s.performSha1 = true := hwalk.performSha1.trans hon
    have hlinks' := openMeasured_links hons opened
    have hway : w.measureKernel = true ∨ s.links = [] := by
      rw [flags.measureKernel, ← hlinks']
      exact hlinks
    obtain ⟨hsha, hcount, hhas⟩ := runWalk_unmeasured walk walked hway
    refine hany (openMeasured_measured hp hreached hons (by rw [hsha]; exact unmeasured.mySha1)
      (hcount.trans unmeasured.byteCount) ?_ opened hf)
    refine hway.imp (fun hm => ?_) fun hnil => (hhas hnil).trans unmeasured.hasToMeasure
    exact hwalk.measureKernel.trans (flags.measureKernel.symm.trans hm)
  | blocks s on unmeasured flags opened =>
    exact hany (blocks_measured hp on unmeasured (flags.performSha1.trans hon) opened hf)

/-! ## Runs -/

/-- A call on the open file. What is read goes to an array of the caller's, or to the physical memory from `addr` on. -/
inductive Call where
  | seek (offset : Int)
  | read (buf : Dest) (len : Int)
  | load (addr : Nat) (len : Int)

def Call.run (p : Platform σ ι) (st : State σ ι) : Call → State σ ι
  | .seek offset => (grubSeek st offset).2
  | .read buf len => (grubRead p st buf len).2.2
  | .load addr len => (grubReadTo p st addr len).2

def runCalls (p : Platform σ ι) (st : State σ ι) (calls : List Call) : State σ ι := calls.foldl (Call.run p) st

def Call.InOrder (st : State σ ι) : Call → Prop
  | .seek _ => True
  | .read _ len => st.InOrder len
  | .load _ len => st.InOrder len

/-- Every read of the run keeps to the order. -/
def CallsInOrder (p : Platform σ ι) : State σ ι → List Call → Prop
  | _, [] => True
  | st, call :: calls => call.InOrder st ∧ CallsInOrder p (call.run p st) calls

theorem Call.run_agree (call : Call) {st : State σ ι} (hf : (call.run p st).faulted = false) :
    st.faulted = false ∧ call.run p st = call.run p.repaired st := by
  cases call with
  | seek offset =>
    refine ⟨?_, rfl⟩
    simp only [Call.run, grubSeek] at hf
    split at hf <;> exact hf
  | read buf len =>
    obtain ⟨hf', heq⟩ := grubRead_agree st buf len hf
    exact ⟨hf', by simp only [Call.run, heq]⟩
  | load addr len =>
    obtain ⟨hf', heq⟩ := grubRead_agree st (st.physical addr) len hf
    exact ⟨hf', by simp only [Call.run, grubReadTo, heq]⟩

theorem runCalls_faulted (calls : List Call) : ∀ {st : State σ ι}, (runCalls p st calls).faulted = false → st.faulted = false := by
  induction calls with
  | nil => intro st hf; exact hf
  | cons call calls ih => intro st hf; exact (call.run_agree (ih hf)).1

theorem Measured.call (hp : p.Healthy) {st : State σ ι} (h : Measured F st) {call : Call} (horder : call.InOrder st)
    (hf : (call.run p st).faulted = false) : Measured F (call.run p st) := by
  cases call with
  | seek offset => exact h.seek offset
  | read buf len => exact h.read hp horder hf
  | load addr len => exact Measured.loaded (h.read hp horder hf) addr _

/-- The run: calls in order keep the file measured. -/
theorem Measured.runCalls (calls : List Call) : ∀ {st : State σ ι}, Measured F st → CallsInOrder p st calls →
    (runCalls p st calls).faulted = false → Measured F (runCalls p st calls) := by
  induction calls with
  | nil => intro st h _ _; exact h
  | cons call calls ih =>
    intro st h ⟨horder, hrest⟩ hf
    have hfc : (call.run p st).faulted = false := runCalls_faulted calls hf
    obtain ⟨-, heq⟩ := call.run_agree hfc
    refine ih ?_ hrest hf
    rw [heq] at hfc ⊢
    exact h.call p.repaired_healthy horder hfc

/-- What the user and the TPM see of a close. -/
def State.closeEvents (p : Platform σ ι) (st : State σ ι) : List Event :=
  if st.performSha1 = false then []
  else if st.sha1ByteCount ≠ st.sha1HasToMeasure then [.notMeasured st.sha1HasToMeasure st.sha1ByteCount]
  else if p.tpm then [.updatePcr pcrKernel (Sha1.sha1Finish st.mySha1).1]
  else []

theorem grubClose_events {st st' : State σ ι} (h : grubClose p st = some st') :
    st'.events = st.events ++ st.closeEvents p := by
  simp only [grubClose] at h
  simp only [State.closeEvents]
  split at h
  next hon =>
    rw [if_neg (by simp [hon])]
    split at h
    next hcount =>
      rw [if_pos hcount]
      split at h
      · cases h
      · cases h; rfl
    next hcount =>
      rw [if_neg hcount]
      split at h
      next htpm => rw [if_pos htpm]; cases h; rfl
      next htpm => rw [if_neg htpm]; cases h; exact (List.append_nil _).symm
  next hoff =>
    rw [if_pos (Bool.eq_false_iff.2 hoff)]
    cases h
    exact (List.append_nil _).symm

/-- The digest of a file that has been measured to its end. -/
theorem Measures.complete {st : State σ ι} (h : Measures st F) (hall : st.sha1ByteCount = st.sha1HasToMeasure)
    (hsome : st.sha1HasToMeasure ≠ 0 ∨ F = []) : (Sha1.sha1Finish st.mySha1).1 = Fips180.sha1 F := by
  have hfits := h.fits
  have hlen : st.sha1ByteCount.toNat = F.length := by
    rcases hsome with hsome | rfl
    · rw [hall]
      exact h.expected.resolve_left hsome
    · have := h.within
      simpa using this
  have hsha := h.mySha1
  rw [hlen, List.take_length] at hsha
  exact Sha1.finish_represents hsha (by omega)

/-- The file `/f` is open, to be measured. -/
def openF : State Unit Unit :=
  (grubOpen diskWithF { State.atBoot () () 640 65536 with performSha1 := true } ⟨[0x2F, 0x66], slash_f_fits⟩).2

end TrustedGrub.Disk
