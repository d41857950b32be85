import TrustedGrub.Disk.Counting

/-!
# Whether all of a file is measured

A file is opened, read from its beginning to its end in whatever pieces, and closed,
with measuring on. What has been hashed by then and what is expected depend on how the
file was reached, on whether it is compressed, and for a block list on the pieces; the
theorem says when the two come out equal.
-/

namespace TrustedGrub.Disk
open Fips180 (Byte Word Words)

variable {σ ι : Type} {p : Platform σ ι} {F : List Byte}

/-! ## Reads one after the other -/

/-- Reads of these lengths, to these destinations. -/
def readCalls (reads : List (Dest × Int)) : List Call := reads.map fun r => .read r.1 r.2

/-- The state after the reads. -/
def readAll (p : Platform σ ι) (st : State σ ι) (reads : List (Dest × Int)) : State σ ι := runCalls p st (readCalls reads)

/-- None of the reads ends with an error. -/
def ReadsWell (p : Platform σ ι) : State σ ι → List (Dest × Int) → Prop
  | _, [] => True
  | st, r :: reads => (grubRead p st r.1 r.2).2.2.errnum = .none ∧ ReadsWell p (grubRead p st r.1 r.2).2.2 reads

theorem readAll_nil (st : State σ ι) : readAll p st [] = st := rfl

theorem readAll_cons (st : State σ ι) (r : Dest × Int) (reads : List (Dest × Int)) :
    readAll p st (r :: reads) = readAll p (grubRead p st r.1 r.2).2.2 reads := rfl

theorem readAll_faulted {reads : List (Dest × Int)} {st : State σ ι} (hf : (readAll p st reads).faulted = false) :
    st.faulted = false := runCalls_faulted (readCalls reads) hf

theorem readAll_settings (reads : List (Dest × Int)) : ∀ st : State σ ι, (readAll p st reads).settings = st.settings := by
  induction reads with
  | nil => intro st; rw [readAll_nil]
  | cons r reads ih =>
    intro st
    rw [readAll_cons, ih, grubRead_keeps]

theorem ReadsWell.agree (reads : List (Dest × Int)) : ∀ {st : State σ ι}, ReadsWell p st reads →
    (readAll p st reads).faulted = false → ReadsWell p.repaired st reads := by
  induction reads with
  | nil => intro st _ _; trivial
  | cons r reads ih =>
    intro st h hf
    rw [readAll_cons] at hf
    have hread : grubRead p st r.1 r.2 = grubRead p.repaired st r.1 r.2 := (grubRead_agree st r.1 r.2 (readAll_faulted hf)).2
    unfold ReadsWell
    rw [← hread]
    exact ⟨h.1, ih h.2 hf⟩

/-! ## Files behind a driver -/

theorem publish_zero (has : Word) : publish has (0 : Nat) = has := by
  unfold publish
  split
  next hzero => rw [hzero]; rfl
  next => rfl

/-- The size is expected, once a plain file has been read. -/
structure PlainRead (F : List Byte) (base : Nat) (has : Word) (pos : Nat) (st : State σ ι) : Prop extends Plain F base has pos st where
  within : pos ≤ F.length
  expects : st.sha1HasToMeasure = has ∨ pos = 0

theorem PlainRead.run (hp : p.Healthy) {base : Nat} {has : Word} (hfits : base + F.length < 2 ^ 32) (reads : List (Dest × Int)) :
    ∀ {pos : Nat} {st : State σ ι}, PlainRead F base has pos st → (readAll p st reads).faulted = false →
      ∃ pos', PlainRead F base has pos' (readAll p st reads) := by
  induction reads with
  | nil =>
    intro pos st h _
    rw [readAll_nil]
    exact ⟨pos, h⟩
  | cons r reads ih =>
    intro pos st h hf
    rw [readAll_cons] at hf ⊢
    obtain ⟨hplain, hhas⟩ := h.toPlain.read hp h.within hfits r.1 r.2 (readAll_faulted hf)
    exact ih ⟨hplain, countAt_le h.within r.2, .inl hhas⟩ hf

/-- A plain file has been read to its end. -/
theorem PlainRead.finished {base pos : Nat} {has : Word} {st : State σ ι} (h : PlainRead F base has pos st)
    (hall : st.filepos = st.filemax) : st.sha1HasToMeasure = has ∧ st.sha1ByteCount.toNat = base + F.length := by
  have hmax := h.opened.filemax
  have hpos := h.filepos
  have hend : pos = F.length := by omega
  refine ⟨?_, by rw [h.count, hend]⟩
  rcases h.expects with hhas | hzero
  · exact hhas
  · have hpub := h.published
    rwa [← hend, hzero, publish_zero] at hpub

theorem Packed.run (hp : p.Healthy) {off base : Nat} {has : Word} {s : ι} {size : Nat} {taken : Nat → Nat}
    (hpack : Packs p (F.drop off) size taken) (hhas : has ≠ 0) (hfits : base + F.length < 2 ^ 32) (reads : List (Dest × Int)) :
    ∀ {pos : Nat} {st : State σ ι}, Packed p F off base has s size pos st → pos ≤ size → ReadsWell p st reads →
      (readAll p st reads).faulted = false → ∃ pos', pos' ≤ size ∧ Packed p F off base has s size pos' (readAll p st reads) := by
  induction reads with
  | nil =>
    intro pos st h hle _ _
    rw [readAll_nil]
    exact ⟨pos, hle, h⟩
  | cons r reads ih =>
    intro pos st h hle hwell hf
    rw [readAll_cons] at hf ⊢
    exact ih (h.read hp hpack hle hhas hfits r.1 r.2 (readAll_faulted hf) hwell.1) (countAt_le hle r.2) hwell.2 hf

/-- What has been hashed of a file behind a driver, `base` bytes of links included. -/
def hashedBytes (stored base off size : Nat) (taken : Nat → Nat) (compressed : Bool) : Nat :=
  if compressed then
    if size = 0 then base
    else if base = 0 then rawPosition stored off (taken ((size + wsize - 1) / wsize))
    else base + rawPosition stored off (taken ((size + wsize - 1) / wsize)) - off
  else base + stored

/-- A compressed file has been read to its end. -/
theorem Packed.finished {off base : Nat} {has : Word} {s : ι} {size pos : Nat} {taken : Nat → Nat} {st : State σ ι}
    (h : Packed p F off base has s size pos st) (hpack : Packs p (F.drop off) size taken) (hall : st.filepos = st.filemax) :
    st.sha1HasToMeasure = has ∧ st.sha1ByteCount.toNat = hashedBytes F.length base off size taken true ∧
      (0 < size → off < rawPosition F.length off (taken ((size + wsize - 1) / wsize))) := by
  have hmax := h.filemax
  have hpos := h.filepos
  obtain rfl : pos = size := by omega
  refine ⟨h.tallied.published, ?_, fun hsize => (h.behind hpack hsize (Nat.le_refl _)).1⟩
  unfold hashedBytes
  rw [if_pos rfl]
  split
  next hzero => exact h.untouched hzero
  next hsize => exact h.count hpack (Nat.pos_of_ne_zero hsize) (Nat.le_refl _)

/-- The data of a compressed file begin at `off` and unpack to `size` bytes. -/
structure Unzips (p : Platform σ ι) (F : List Byte) (off size : Nat) (taken : Nat → Nat) (st : State σ ι) : Prop where
  dataOffset : st.gzip.dataOffset = off
  inside : off ≤ F.length
  filemax : st.filemax = size
  packs : Packs p (F.drop off) size taken

theorem Packs.repaired {data : List Byte} {size : Nat} {taken : Nat → Nat} (h : Packs p data size taken) :
    Packs p.repaired data size taken where
  windows s k hk := by
    rw [feedWindows_repaired]
    exact h.windows s k hk
  takes := h.takes

/-- What is hashed and what is expected, once a file behind a driver has been read. -/
structure Finished (F : List Byte) (base : Nat) (has : Word) (off size : Nat) (taken : Nat → Nat) (st : State σ ι) : Prop where
  expects : st.sha1HasToMeasure = has
  count : st.sha1ByteCount.toNat = hashedBytes F.length base off size taken st.compressedFile
  behind : st.compressedFile = true → 0 < F.length ∧ (0 < size → off < rawPosition F.length off (taken ((size + wsize - 1) / wsize)))

/-- **The run** over a file behind a driver. -/
theorem Fresh.run (hp : p.Healthy) {base off size : Nat} {has : Word} {taken : Nat → Nat} {st : State σ ι} (h : Fresh p F base has st)
    (hunzips : st.compressedFile = true → Unzips p F off size taken st) (hfits : base + F.length < 2 ^ 32)
    {reads : List (Dest × Int)} (hwell : ReadsWell p st reads) (hf : (readAll p st reads).faulted = false)
    (hall : (readAll p st reads).filepos = (readAll p st reads).filemax) : Finished F base has off size taken (readAll p st reads) := by
  have hkept : (readAll p st reads).compressedFile = st.compressedFile := congrArg Settings.compressedFile (readAll_settings reads st)
  cases h with
  | plain plain =>
    obtain ⟨pos, hread⟩ := PlainRead.run hp hfits reads ⟨plain, Nat.zero_le _, .inr rfl⟩ hf
    obtain ⟨hhas, hcount⟩ := hread.finished hall
    have hplain : (readAll p st reads).compressedFile = false := hkept.trans plain.opened.compressedFile
    refine ⟨hhas, ?_, fun hc => absurd (hplain.symm.trans hc) Bool.false_ne_true⟩
    rw [hcount, hplain]
    rfl
  | packed compressedFile published positive start =>
    have hz := hunzips compressedFile
    obtain ⟨s, hpacked⟩ := start off size hz.dataOffset hz.inside hz.filemax
    obtain ⟨pos, -, hread⟩ := hpacked.run hp hz.packs published hfits reads (Nat.zero_le _) hwell hf
    obtain ⟨hhas, hcount, hbehind⟩ := hread.finished hz.packs hall
    refine ⟨hhas, ?_, fun _ => ⟨positive, hbehind⟩⟩
    rw [hcount, hkept, compressedFile]

/-! ## The copy in memory -/

/-- Reads from the copy are not hashed. -/
theorem memory_run (reads : List (Dest × Int)) : ∀ {st : State σ ι}, st.measureKernel = true →
    (readAll p st reads).sha1ByteCount = st.sha1ByteCount ∧
      (readAll p st reads = st ∨ (readAll p st reads).sha1HasToMeasure = publish st.sha1HasToMeasure st.filemax) := by
  induction reads with
  | nil =>
    intro st _
    rw [readAll_nil]
    exact ⟨rfl, .inl rfl⟩
  | cons r reads ih =>
    intro st hm
    rw [readAll_cons]
    have hread : grubRead p st r.1 r.2 = copyRead st.aimed r.1 r.2 := memory_read st hm r.1 r.2
    have hhas : (grubRead p st r.1 r.2).2.2.sha1HasToMeasure = publish st.sha1HasToMeasure st.filemax := by
      rw [hread]
      rfl
    have hcount : (grubRead p st r.1 r.2).2.2.sha1ByteCount = st.sha1ByteCount := by
      rw [hread]
      rfl
    have hmax : (grubRead p st r.1 r.2).2.2.filemax = st.filemax := by
      rw [hread]
      rfl
    obtain ⟨hcounts, hkept⟩ := @ih (grubRead p st r.1 r.2).2.2 (by rw [hread]; exact hm)
    refine ⟨hcounts.trans hcount, .inr ?_⟩
    rcases hkept with hsame | hpub
    · rw [hsame, hhas]
    · rw [hpub, hhas, hmax, publish_idem]

/-- The copy of a kernel is made by one read of the whole file. -/
theorem Fresh.copied (hp : p.Healthy) {off size : Nat} {has : Word} {taken : Nat → Nat} {t : State σ ι}
    (h : Fresh p F 0 has (t.probed true).copyPrepared) (hsize : t.compressedFile = false → t.kernelFilesize = F.length)
    (hunzips : t.compressedFile = true → Unzips p F off size taken t) (hfits : F.length ≤ 0x7FFFFFFF)
    (hf : (copyKernel p (t.probed true)).faulted = false) (herr : (copyKernel p (t.probed true)).errnum = .none) :
    Finished F 0 has off size taken (copyKernel p (t.probed true)) := by
  generalize hs : (t.probed true).copyPrepared = s at h
  have hcopy : copyKernel p (t.probed true) = (grubReadTo p s s.kernelRealAddr s.copyLength).2.copied := by
    rw [← hs]
    rfl
  have hcomp : s.compressedFile = t.compressedFile := by
    rw [← hs]
    rfl
  have hoff : s.gzip.dataOffset = t.gzip.dataOffset := by
    rw [← hs]
    rfl
  have hmax : s.filemax = t.filemax := by
    rw [← hs]
    rfl
  rw [hcopy] at hf herr ⊢
  have hkeptmax := congrArg Settings.filemax (grubRead_keeps (p := p) s (s.physical s.kernelRealAddr) s.copyLength)
  have hread := readAll_cons (p := p) s (s.physical s.kernelRealAddr, s.copyLength) []
  rw [readAll_nil] at hread
  have hunzips' : s.compressedFile = true → Unzips p F off size taken s := fun hc => by
    have hz := hunzips (hcomp.symm.trans hc)
    exact ⟨hoff.trans hz.dataOffset, hz.inside, hmax.trans hz.filemax, hz.packs⟩
  have hall : (grubRead p s (s.physical s.kernelRealAddr) s.copyLength).2.2.filepos = s.filemax := by
    cases h with
    | plain plain =>
      have hlen : s.copyLength = F.length := by
        have hc := plain.opened.compressedFile
        rw [← hs, copyLength_plain (hcomp.symm.trans hc)]
        exact hsize (hcomp.symm.trans hc)
      obtain ⟨hdone, -⟩ := plain.read hp (Nat.zero_le _) (by omega) (s.physical s.kernelRealAddr) s.copyLength hf
      rw [hdone.filepos, hlen, countAt_self (Nat.le_refl _), plain.opened.filemax, Nat.zero_add]
    | packed compressedFile published positive start =>
      have hz := hunzips' compressedFile
      have hlen : s.copyLength = size := by
        rw [← hz.filemax, hmax, ← copyLength_packed (hcomp.symm.trans compressedFile), hs]
      obtain ⟨s₀, hpacked⟩ := start off size hz.dataOffset hz.inside hz.filemax
      have hdone := hpacked.read hp hz.packs (Nat.zero_le _) published (by omega) (s.physical s.kernelRealAddr) s.copyLength hf herr
      rw [hdone.filepos, hlen, countAt_self (Nat.le_refl _), hz.filemax, Nat.zero_add]
  have hwell : ReadsWell p s [(s.physical s.kernelRealAddr, s.copyLength)] := ⟨herr, trivial⟩
  have hrun := h.run hp hunzips' (by omega) hwell (by rw [hread]; exact hf) (by rw [hread]; exact hall.trans hkeptmax.symm)
  rw [hread] at hrun
  exact ⟨hrun.expects, hrun.count, hrun.behind⟩

/-! ## Opening a file behind a driver -/

theorem testHeader_file (st : State σ ι) {st' : State σ ι} (h : gunzipTestHeader p st = (true, st')) : st'.file = st.file := by
  rcases testHeader_cases h with ⟨t, hreads, rfl⟩ | ⟨hd, size, hreads, -, rfl⟩
  · exact congrArg Settings.file hreads.settings
  · have hread := reads_trailer p hd
    exact (congrArg Settings.file hread.settings).trans (congrArg Settings.file hreads.settings)

/-- A file that a driver has opened, with nothing but links hashed, and measuring on. -/
structure Counted (base : Nat) (st : State σ ι) : Prop where
  reached : Reached st
  on : st.performSha1 = true
  count : st.sha1ByteCount.toNat = base

theorem openMeasured_kept {st st' : State σ ι} (h : Reached st) (hon : st.performSha1 = true) (heq : openMeasured p st = (true, st')) :
    st'.blockFile = false ∧ st'.file = st.file := by
  unfold openMeasured at heq
  simp only [if_pos hon] at heq
  generalize hr : gunzipTestHeader p st.probing = r at heq
  obtain ⟨temp, t⟩ := r
  obtain ⟨rfl, hs⟩ := Prod.mk.inj heq
  have hfile : t.file = st.file := testHeader_file st.probing hr
  have hblock : t.blockFile = false := (testHeader_blockFile hr).trans h.blockFile
  rw [← hs]
  split
  · have hkeep := grubRead_keeps (p := p) (t.probed st.measureKernel).copyPrepared
      ((t.probed st.measureKernel).copyPrepared.physical (t.probed st.measureKernel).copyPrepared.kernelRealAddr)
      (t.probed st.measureKernel).copyPrepared.copyLength
    exact ⟨(congrArg Settings.blockFile hkeep).trans hblock, (congrArg Settings.file hkeep).trans hfile⟩
  · exact ⟨hblock, hfile⟩

/-- What the end of `grub_open` leaves without `measure_kernel`. -/
theorem openMeasured_fresh (hp : p.Healthy) {base : Nat} {st st' : State σ ι} (h : Counted base st) (hm : st.measureKernel = false)
    (heq : openMeasured p st = (true, st')) (hf : st'.faulted = false) :
    Fresh p st.file.bytes base (publish st.sha1HasToMeasure st.file.bytes.length) st' := by
  unfold openMeasured at heq
  simp only [if_pos h.on, hm, Bool.false_eq_true, if_false] at heq
  generalize hr : gunzipTestHeader p st.probing = r at heq
  obtain ⟨temp, t⟩ := r
  obtain ⟨rfl, rfl⟩ := Prod.mk.inj heq
  have hopen : RawOpen st.probing st.file.bytes := h.reached.probing.rawOpen rfl
  have hheaded := header_headed hp hopen rfl h.reached.blockFile st.file.fits hr hf
  exact hheaded.probed h.count

/-- What it leaves with `measure_kernel`: all has been hashed for the copy. -/
theorem openMeasured_finished (hp : p.Healthy) {off size : Nat} {taken : Nat → Nat} {st st' : State σ ι} (h : Counted 0 st)
    (hm : st.measureKernel = true) (heq : openMeasured p st = (true, st')) (hf : st'.faulted = false) (herr : st'.errnum = .none)
    (hunzips : st'.compressedFile = true → Unzips p st.file.bytes off size taken st') :
    Finished st.file.bytes 0 (BitVec.ofNat 32 st.file.bytes.length) off size taken st' ∧ st'.measureKernel = true ∧
      publish st'.sha1HasToMeasure st'.filemax = st'.sha1HasToMeasure := by
  unfold openMeasured at heq
  simp only [if_pos h.on, if_pos hm] at heq
  generalize hr : gunzipTestHeader p st.probing = r at heq
  obtain ⟨temp, t⟩ := r
  obtain ⟨rfl, hs⟩ := Prod.mk.inj heq
  rw [hm] at hs
  have hft : t.faulted = false := (copyKernel_agree (p := p) (t.probed true) (hs ▸ hf)).1
  have hopen : RawOpen st.probing st.file.bytes := h.reached.probing.rawOpen rfl
  have hheaded := header_headed hp hopen rfl h.reached.blockFile st.file.fits hr hft
  have hsize : st.probing.kernelFilesize = st.file.bytes.length := by
    have hprobing : st.probing.kernelFilesize = st.filemax := if_pos hm
    rw [hprobing, h.reached.filemax]
  have hfresh := hheaded.copyPrepared h.count hsize st.file.fits
  have hkeep := grubRead_keeps (p := p) (t.probed true).copyPrepared
    ((t.probed true).copyPrepared.physical (t.probed true).copyPrepared.kernelRealAddr) (t.probed true).copyPrepared.copyLength
  have hcomp : st'.compressedFile = t.compressedFile := by
    rw [← hs]
    exact congrArg Settings.compressedFile hkeep
  have hmax : st'.filemax = t.filemax := by
    rw [← hs]
    exact congrArg Settings.filemax hkeep
  have hoff : st'.gzip.dataOffset = t.gzip.dataOffset := by
    rw [← hs]
    exact congrArg Settings.gzipDataOffset hkeep
  have hdone : Finished st.file.bytes 0 (BitVec.ofNat 32 st.file.bytes.length) off size taken st' := by
    rw [← hs] at hf herr ⊢
    refine hfresh.copied hp (fun _ => hheaded.kernelFilesize.trans hsize) (fun hc => ?_) st.file.fits hf herr
    have hz := hunzips (hcomp.trans hc)
    exact ⟨hoff.symm.trans hz.dataOffset, hz.inside, hmax.symm.trans hz.filemax, hz.packs⟩
  refine ⟨hdone, by rw [← hs]; rfl, ?_⟩
  rw [hdone.expects]
  cases hheaded.kind with
  | inl hraw =>
    rw [hmax, hraw.filemax, publish, BitVec.ofInt_natCast]
    exact ite_self _
  | inr hpacked =>
    have hpos := hpacked.2.1
    have hfits := st.file.fits
    rw [publish, if_neg]
    intro hzero
    have hlen := congrArg BitVec.toNat hzero
    rw [ofNat_toNat (by omega)] at hlen
    exact absurd hlen (Nat.ne_of_gt hpos)

/-! ## Block lists -/

/-- Where reads of these lengths start, one after the other, from `pos` on. -/
def starts (size : Nat) : Nat → List Int → List Nat
  | _, [] => []
  | pos, len :: lens => pos :: starts size (pos + countAt size pos len) lens

/-- A plain block list, read up to `pos`; what has been hashed is the part that was
skipped by the first read behind the beginning. -/
structure Listed (F : List Byte) (count pos : Nat) (st : State σ ι) : Prop where
  opened : RawOpen st F
  on : st.performSha1 = true
  list : st.blockFile = true
  published : publish st.sha1HasToMeasure F.length = BitVec.ofNat 32 F.length
  byteCount : st.sha1ByteCount = BitVec.ofNat 32 count
  filepos : st.filepos = pos
  within : pos ≤ F.length
  counted : count ≤ F.length

theorem countedTo_ofNat {count start : Nat} (h : count < 2 ^ 32) :
    countedTo (BitVec.ofNat 32 count) start = BitVec.ofNat 32 (if count = 0 then start else count) := by
  have hzero : (BitVec.ofNat 32 count : Word) = 0 ↔ count = 0 := by
    rw [← BitVec.toNat_inj, ofNat_toNat h]
    rfl
  simp only [countedTo, hzero]
  split <;> rfl

theorem Listed.read (hp : p.Healthy) {count pos : Nat} {st : State σ ι} (h : Listed F count pos st) (hfits : F.length ≤ 0x7FFFFFFF)
    (buf : Dest) (len : Int) (hf : (grubRead p st buf len).2.2.faulted = false) :
    Listed F (if count = 0 then pos else count) (pos + countAt F.length pos len) (grubRead p st buf len).2.2 ∧
      (grubRead p st buf len).2.2.sha1HasToMeasure = BitVec.ofNat 32 F.length := by
  have hreach := h.opened.reaches hf
  have hmax := h.opened.filemax
  have hpos := h.filepos
  have hle := h.within
  have hcounted := h.counted
  have hstart : st.startOf = pos := by
    rw [State.startOf, saneFilepos_of_le (by omega) (by omega), hpos, Int.toNat_natCast]
  have hstep := raw_step hp (grubReadWith p noRead) h.opened buf hreach
  have hkeep := grubRead_keeps (p := p) st buf len
  have hcount := raw_count hp (grubReadWith p noRead) h.opened h.on buf hreach
  have hhas : (grubRead p st buf len).2.2.sha1HasToMeasure = publish st.sha1HasToMeasure F.length := hstep.expected
  rw [if_pos h.list, h.byteCount, hstart, countedTo_ofNat (by omega)] at hcount
  refine ⟨⟨h.opened.read hp _ buf hreach, (congrArg Settings.performSha1 hkeep).trans h.on,
    (congrArg Settings.blockFile hkeep).trans h.list, ?_, hcount, ?_, countAt_le hle len, ?_⟩, hhas.trans h.published⟩
  · rw [hhas, publish_idem, h.published]
  · rw [← hstart]
    exact hstep.filepos
  · split <;> omega

/-- **The run** over a plain block list. -/
theorem Listed.run (hp : p.Healthy) (hfits : F.length ≤ 0x7FFFFFFF) (reads : List (Dest × Int)) : ∀ {count pos : Nat} {st : State σ ι},
    Listed F count pos st → (readAll p st reads).faulted = false →
    ∃ pos', Listed F (if count = 0 then firstSize (starts F.length pos (reads.map Prod.snd)) else count) pos' (readAll p st reads) ∧
      (readAll p st reads = st ∨ (readAll p st reads).sha1HasToMeasure = BitVec.ofNat 32 F.length) := by
  induction reads with
  | nil =>
    intro count pos st h _
    have hsame : (if count = 0 then firstSize (starts F.length pos (([] : List (Dest × Int)).map Prod.snd)) else count) = count := by
      split
      next hzero => rw [hzero]; rfl
      next => rfl
    rw [readAll_nil, hsame]
    exact ⟨pos, h, .inl rfl⟩
  | cons r reads ih =>
    intro count pos st h hf
    rw [readAll_cons] at hf ⊢
    obtain ⟨hread, hhas⟩ := h.read hp hfits r.1 r.2 (readAll_faulted hf)
    obtain ⟨pos', hrun, hkept⟩ := ih hread hf
    have hcount : (if (if count = 0 then pos else count) = 0 then
        firstSize (starts F.length (pos + countAt F.length pos r.2) (reads.map Prod.snd)) else if count = 0 then pos else count) =
        if count = 0 then firstSize (starts F.length pos ((r :: reads).map Prod.snd)) else count := by
      rw [List.map_cons, starts, firstSize]
      by_cases hzero : count = 0
      · simp only [if_pos hzero]
      · simp only [if_neg hzero]
    rw [hcount] at hrun
    refine ⟨pos', hrun, .inr ?_⟩
    rcases hkept with hsame | hpub
    · rw [hsame, hhas]
    · exact hpub

/-- A block list whose header is being looked at: not all of it has been hashed. -/
structure Begun (F : List Byte) (st : State σ ι) : Prop where
  opened : RawOpen st F
  on : st.performSha1 = true
  list : st.blockFile = true
  count : st.sha1ByteCount.toNat < F.length

/-- A read that delivers starts before the end. -/
theorem Begun.read (hp : p.Healthy) {st : State σ ι} (h : Begun F st) (hfits : F.length ≤ 0x7FFFFFFF) (buf : Dest) (len : Int)
    (hf : (grubRead p st buf len).2.2.faulted = false) (hsome : (grubRead p st buf len).1 ≠ 0) :
    Begun F (grubRead p st buf len).2.2 ∧ (0 < st.startOf → (grubRead p st buf len).2.2.sha1ByteCount ≠ 0) := by
  have hreach := h.opened.reaches hf
  have hkeep := grubRead_keeps (p := p) st buf len
  have hcount := raw_count hp (grubReadWith p noRead) h.opened h.on buf hreach
  obtain ⟨driver, blocks, heq, -⟩ := raw_read hp (grubReadWith p noRead) h.opened buf hreach
  have hres : (grubRead p st buf len).1 = (countAt F.length st.startOf len : Int) := congrArg Prod.fst heq
  have hstart := h.opened.start.2
  have hend := countAt_le hstart len
  have hdelivers : 0 < countAt F.length st.startOf len := by omega
  have hold := h.count
  have hcount' : (grubRead p st buf len).2.2.sha1ByteCount.toNat =
      if st.sha1ByteCount.toNat = 0 then st.startOf else st.sha1ByteCount.toNat := by
    rw [grubRead, hcount, if_pos h.list, countedTo_toNat (by omega)]
  refine ⟨⟨h.opened.read hp _ buf hreach, (congrArg Settings.performSha1 hkeep).trans h.on,
    (congrArg Settings.blockFile hkeep).trans h.list, ?_⟩, fun hbehind hzero => ?_⟩
  · rw [hcount']
    split <;> omega
  · rw [hzero] at hcount'
    have hnone : (0 : Word).toNat = 0 := rfl
    rw [hnone] at hcount'
    split at hcount' <;> omega

theorem badField_begun (hp : p.Healthy) (hfits : F.length ≤ 0x7FFFFFFF) (fuel : Nat) : ∀ {len : Int} {ch : Byte} {st : State σ ι},
    Begun F st → (badField p fuel len ch st).1 = false → (badField p fuel len ch st).2.faulted = false →
    Begun F (badField p fuel len ch st).2 := by
  induction fuel with
  | zero => intro len ch st _ hgood; cases hgood
  | succ fuel ih =>
    intro len ch st h hgood hf
    unfold badField at hgood hf ⊢
    by_cases hend : if 0 ≤ len then len = 0 else ch = 0
    · rw [if_pos hend]
      exact h
    simp only [if_neg hend] at hgood hf ⊢
    by_cases hone : (grubRead p st (.local fun _ => ch) 1).1 = 1
    · simp only [if_pos hone] at hgood hf ⊢
      have hfr := (badField_agree (p := p) fuel hf).1
      exact ih (h.read hp hfits _ 1 hfr (by omega)).1 hgood hf
    · simp only [if_neg hone] at hgood hf ⊢
      have hsome : (grubRead p st (.local fun _ => ch) 1).1 ≠ 0 := of_decide_eq_false hgood
      exact (h.read hp hfits _ 1 hf hsome).1

theorem badExtra_begun (hp : p.Healthy) (hfits : F.length ≤ 0x7FFFFFFF) {buf : Nat → Byte} {st : State σ ι} (h : Begun F st)
    (hgood : (badExtra p buf st).1 = false) (hf : (badExtra p buf st).2.faulted = false) : Begun F (badExtra p buf st).2 := by
  unfold badExtra at hgood hf ⊢
  by_cases hmethod : buf 2 ≠ 8 ∨ buf 3 &&& (0x02 ||| 0x20 ||| 0xC0) ≠ 0
  · rw [if_pos hmethod] at hgood
    cases hgood
  rw [if_neg hmethod] at hgood hf ⊢
  by_cases hextra : buf 3 &&& 0x04 ≠ 0
  · simp only [if_pos hextra] at hgood hf ⊢
    by_cases hshort : (grubRead p st (.local buf) 2).1 ≠ 2
    · simp only [if_pos hshort] at hgood
      cases hgood
    · simp only [if_neg hshort] at hgood hf ⊢
      have hfr := (badField_agree (p := p) _ hf).1
      exact badField_begun hp hfits _ (h.read hp hfits (.local buf) 2 hfr (by omega)).1 hgood hf
  · rw [if_neg hextra]
    exact h

theorem badString_begun (hp : p.Healthy) (hfits : F.length ≤ 0x7FFFFFFF) {flag : Byte} {st : State σ ι} (h : Begun F st)
    (hgood : (badString p flag st).1 = false) (hf : (badString p flag st).2.faulted = false) : Begun F (badString p flag st).2 := by
  unfold badString at hgood hf ⊢
  by_cases hset : flag ≠ 0
  · rw [if_pos hset] at hgood hf ⊢
    exact badField_begun hp hfits _ h hgood hf
  · rw [if_neg hset]
    exact h

theorem badHeader_begun (hp : p.Healthy) (hfits : F.length ≤ 0x7FFFFFFF) {buf : Nat → Byte} {st : State σ ι} (h : Begun F st)
    (hgood : (badHeader p buf st).1 = false) (hf : (badHeader p buf st).2.faulted = false) : Begun F (badHeader p buf st).2 := by
  unfold badHeader at hgood hf ⊢
  by_cases hextra : (badExtra p buf st).1 = true
  · simp only [if_pos hextra] at hgood
    cases hgood
  simp only [if_neg hextra] at hgood hf ⊢
  have hfn : (badString p (buf 3 &&& 0x08) (badExtra p buf st).2).2.faulted = false := by
    split at hf
    · exact hf
    · exact (badString_agree hf).1
  have hfe := (badString_agree hfn).1
  have hbegun := badExtra_begun hp hfits h (Bool.eq_false_iff.2 hextra) hfe
  by_cases hname : (badString p (buf 3 &&& 0x08) (badExtra p buf st).2).1 = true
  · simp only [if_pos hname] at hgood
    cases hgood
  simp only [if_neg hname] at hgood hf ⊢
  exact badString_begun hp hfits (badString_begun hp hfits hbegun (Bool.eq_false_iff.2 hname) hfn) hgood hf

theorem Listed.atStart {count pos : Nat} {st : State σ ι} (h : Listed F count pos st) : Listed F count 0 st.atStart :=
  ⟨h.opened.atStart, h.on, h.list, h.published, h.byteCount, rfl, Nat.zero_le _, h.counted⟩

/-- A block list has been opened; nothing of it has been hashed. -/
theorem OnBlocks.listed {st : State σ ι} (h : OnBlocks st) (hu : Unmeasured st) (hon : st.performSha1 = true)
    (hm : st.measureKernel = false) : Listed st.rawFile 0 0 st := by
  have hopen := h.rawOpen hm
  refine ⟨hopen, hon, h.blockFile, ?_, hu.byteCount, h.filepos, Nat.zero_le _, Nat.zero_le _⟩
  rw [hu.hasToMeasure, publish, if_pos rfl, BitVec.ofInt_natCast]

/-- A compressed block list: what the header has made count stays short of the size. -/
structure ShortOf (F : List Byte) (st : State σ ι) : Prop where
  compressedFile : st.compressedFile = true
  settled : Settled F st.sha1ByteCount (BitVec.ofNat 32 F.length) st.inside
  some : st.sha1ByteCount ≠ 0
  short : st.sha1ByteCount.toNat < F.length

theorem trailer_shortOf (hp : p.Healthy) (hfits : F.length ≤ 0x7FFFFFFF) {hd : State σ ι} (h : Begun F hd) (hten : 10 ≤ F.length)
    (hpub : publish hd.sha1HasToMeasure F.length = BitVec.ofNat 32 F.length) (hcount : (hd.trailer p).1 = 8)
    (hf : (hd.trailer p).2.2.faulted = false) (size : Int) : ShortOf F ((hd.trailer p).2.2.unpacking p size) := by
  obtain ⟨hopen, hhas, -⟩ := h.opened.trailer hp hfits hcount hf
  have hmax : hd.filemax = F.length := h.opened.filemax
  have hat : hd.atTrailer.filepos = hd.filemax - 8 := rfl
  have hmax' : hd.atTrailer.filemax = hd.filemax := rfl
  have hstart : 0 < hd.atTrailer.startOf := by
    rw [State.startOf, saneFilepos_of_le (by omega) (by omega)]
    omega
  have hbegun : Begun F hd.atTrailer := ⟨h.opened.atTrailer, h.on, h.list, h.count⟩
  obtain ⟨hread, hsome⟩ := hbegun.read hp hfits (.local fun _ => 0) 8 hf (by rw [← State.trailer, hcount]; decide)
  have hreads := reads_trailer p hd
  have hpub' : publish (hd.trailer p).2.2.sha1HasToMeasure F.length = BitVec.ofNat 32 F.length :=
    (hreads.published hp h.opened.atTrailer hf).trans hpub
  rw [publish, if_neg hhas] at hpub'
  have hpacked := hopen.unpacking (p := p) hhas size
  exact ⟨rfl, ⟨hpacked.raw, hread.on, hread.list, hpub', rfl⟩, hsome hstart, hread.count⟩

/-- **The header of a block list** is read with measuring on. -/
theorem testHeader_listed (hp : p.Healthy) {st st' : State σ ι} (h : OnBlocks st) (hu : Unmeasured st) (hon : st.performSha1 = true)
    (hm : st.measureKernel = false) (heq : gunzipTestHeader p st = (true, st')) (hf : st'.faulted = false) :
    Listed st.rawFile 0 0 st' ∨ ShortOf st.rawFile st' := by
  have hlisted := h.listed hu hon hm
  have hlen := h.size
  have hpositive := h.positive
  have hfits := h.fits
  simp only [maxint] at hfits
  unfold gunzipTestHeader at heq
  by_cases hno : st.noDecompression = true
  · rw [if_pos hno] at heq
    obtain rfl := (congrArg Prod.snd heq).symm
    exact .inl hlisted.atStart
  rw [if_neg hno] at heq
  by_cases hplain : (grubRead p st (.local fun _ => 0) 10).1 ≠ 10 ∨ ushortAt (grubRead p st (.local fun _ => 0) 10).2.1 0 ≠ 0x8B1F ∧
      ushortAt (grubRead p st (.local fun _ => 0) 10).2.1 0 ≠ 0x9E1F
  · simp only [if_pos hplain] at heq
    obtain rfl := (congrArg Prod.snd heq).symm
    exact .inl (hlisted.read hp (by omega) (.local fun _ => 0) 10 hf).1.atStart
  simp only [if_neg hplain] at heq
  have hten : (grubRead p st (.local fun _ => 0) 10).1 = 10 := not_not.1 fun hne => hplain (.inl hne)
  have hbegun : Begun st.rawFile st := ⟨hlisted.opened, hon, h.blockFile, by rw [hu.byteCount]; exact (by omega : 0 < st.rawFile.length)⟩
  generalize hr : grubRead p st (.local fun _ => 0) 10 = r at heq
  by_cases hbad : (badHeader p r.2.1 r.2.2).1 = true
  · simp only [if_pos hbad] at heq
    cases heq
  simp only [if_neg hbad, gunzipTrailer] at heq
  generalize hhd : (badHeader p r.2.1 r.2.2).2 = hd at heq
  by_cases hn : (grubRead p hd.atTrailer (.local fun _ => 0) 8).1 ≠ 8
  · simp only [if_pos hn] at heq
    cases heq
  simp only [if_neg hn] at heq
  obtain rfl := (congrArg Prod.snd heq).symm
  have hft : (hd.trailer p).2.2.faulted = false := hf
  have hfh : hd.faulted = false := (grubRead_agree _ _ _ hft).1
  have hfb : (badHeader p r.2.1 r.2.2).2.faulted = false := by rw [hhd]; exact hfh
  have hfr : r.2.2.faulted = false := (badHeader_agree hfb).1
  have hfirst : (grubRead p st (.local fun _ => 0) 10).2.2.faulted = false := by
    rw [hr]
    exact hfr
  have hlong : 10 ≤ st.rawFile.length := by
    have hreach := hlisted.opened.reaches hfirst
    obtain ⟨driver, blocks, hraw, -⟩ := raw_read hp (grubReadWith p noRead) hlisted.opened (.local fun _ => 0) hreach
    have hres : (grubRead p st (.local fun _ => 0) 10).1 = _ := congrArg Prod.fst hraw
    rw [hten] at hres
    have hend := countAt_le hlisted.opened.start.2 10
    dsimp only at hres
    omega
  have hread := (hbegun.read hp (by omega) (.local fun _ => 0) 10 hfirst (by rw [hten]; decide)).1
  rw [hr] at hread
  have hheader := badHeader_begun hp (by omega) hread (Bool.eq_false_iff.2 hbad) hfb
  have hreads : Reads p st hd := by
    have hone := (Reads.refl (p := p) st).read (fun _ => 0) 10
    rw [hr] at hone
    rw [← hhd]
    exact hone.trans (badHeader_reads _ _)
  rw [hhd] at hheader
  have hpub := (hreads.published hp hlisted.opened hfh).trans hlisted.published
  exact .inr (trailer_shortOf hp (by omega) hheader hlong hpub (not_not.1 hn) hft _)

theorem ShortOf.read (hp : p.Healthy) {st : State σ ι} (h : ShortOf F st) (hlen : F.length < 2 ^ 32) (buf : Dest) (len : Int)
    (hf : (grubRead p st buf len).2.2.faulted = false) (herr : (grubRead p st buf len).2.2.errnum = .none) :
    ShortOf F (grubRead p st buf len).2.2 := by
  have hhas : (BitVec.ofNat 32 F.length : Word) ≠ 0 := by
    intro hzero
    have hshort := h.short
    have hval := congrArg BitVec.toNat hzero
    rw [ofNat_toNat hlen] at hval
    have hnone : (0 : Word).toNat = 0 := rfl
    omega
  have hskip : measureSkipped (grubReadWith p (grubReadWith p noRead)) st.aimed = st.aimed := by
    rw [measureSkipped, if_neg]
    exact fun hc => h.some hc.2.1
  have hsettled := h.settled
  have hraw := hsettled.raw
  have haimed : st.aimed.sha1HasToMeasure = BitVec.ofNat 32 F.length := by
    have hpub : st.sha1HasToMeasure = BitVec.ofNat 32 F.length := hsettled.published
    have haim : st.aimed.sha1HasToMeasure = publish st.sha1HasToMeasure st.filemax := rfl
    rw [haim, publish, hpub, if_neg hhas]
  have hentered : Settled F st.sha1ByteCount (BitVec.ofNat 32 F.length) (st.aimed.gunzipEntered p) := by
    unfold State.gunzipEntered
    split
    · exact ⟨⟨hraw.measureKernel, rfl, hraw.filemax, hraw.stored.blocks, hraw.stored.driver⟩, hsettled.on, hsettled.list, haimed, rfl⟩
    · exact ⟨⟨hraw.measureKernel, rfl, hraw.filemax, hraw.stored.blocks, hraw.stored.driver⟩, hsettled.on, hsettled.list, haimed, rfl⟩
  have hm : st.measureKernel = false := hsettled.raw.measureKernel
  have hdone := inside_lasting (settled_lasting hp h.some hhas) (fun _ hs => hs.raw.compressedFile) hm h.compressedFile hskip
    hentered hf herr
  have hcount : (grubRead p st buf len).2.2.sha1ByteCount = st.sha1ByteCount := hdone.count
  refine ⟨(congrArg Settings.compressedFile (grubRead_keeps (p := p) st buf len)).trans h.compressedFile, ?_, ?_, ?_⟩
  · rw [hcount]
    exact hdone
  · rw [hcount]
    exact h.some
  · rw [hcount]
    exact h.short

theorem ShortOf.run (hp : p.Healthy) (hlen : F.length < 2 ^ 32) (reads : List (Dest × Int)) : ∀ {st : State σ ι}, ShortOf F st →
    ReadsWell p st reads → (readAll p st reads).faulted = false → ShortOf F (readAll p st reads) := by
  induction reads with
  | nil => intro st h _ _; exact h
  | cons r reads ih =>
    intro st h hwell hf
    rw [readAll_cons] at hf ⊢
    exact ih (h.read hp hlen r.1 r.2 (readAll_faulted hf) hwell.1) hwell.2 hf

/-- Nothing is hashed while `measure_kernel` sends the reads to memory. -/
theorem Reads.memory {st s : State σ ι} (h : Reads p st s) (hm : st.measureKernel = true) :
    s.sha1ByteCount = st.sha1ByteCount ∧ s.measureKernel = true := by
  induction h with
  | refl => exact ⟨rfl, hm⟩
  | @read s h bytes len ih =>
    have hread : grubRead p s (.local bytes) len = copyRead s.aimed (.local bytes) len := memory_read s ih.2 _ len
    rw [hread]
    exact ih
  | seek _ _ ih => exact ih

/-- A block list is opened with `measure_kernel` set: nothing is hashed, and something is
expected as soon as anything has been read. -/
theorem testHeader_unserved {st st' : State σ ι} (h : OnBlocks st) (hu : Unmeasured st) (hm : st.measureKernel = true)
    (heq : gunzipTestHeader p st = (true, st')) :
    st'.sha1ByteCount = 0 ∧ st'.measureKernel = true ∧ (st'.sha1HasToMeasure ≠ 0 ∨ st'.filepos = 0 ∧ st'.filemax = st.filemax) := by
  rcases testHeader_cases heq with ⟨t, hreads, rfl⟩ | ⟨hd, size, hreads, -, rfl⟩
  · obtain ⟨hcount, hkept⟩ := hreads.memory hm
    exact ⟨hcount.trans hu.byteCount, hkept, .inr ⟨rfl, congrArg Settings.filemax hreads.settings⟩⟩
  · obtain ⟨hcount, hkept⟩ := hreads.memory hm
    have htrailer : hd.trailer p = copyRead hd.atTrailer.aimed (.local fun _ => 0) 8 := memory_read hd.atTrailer hkept _ _
    have hcounts : (hd.trailer p).2.2.sha1ByteCount = hd.sha1ByteCount := by
      rw [htrailer]
      rfl
    have hmk : (hd.trailer p).2.2.measureKernel = true := by
      rw [htrailer]
      exact hkept
    have hhas : (hd.trailer p).2.2.sha1HasToMeasure = publish hd.sha1HasToMeasure hd.filemax := by
      rw [htrailer]
      rfl
    have hmax : hd.filemax = st.filemax := congrArg Settings.filemax hreads.settings
    have hpositive := h.positive
    have hfits := h.fits
    simp only [maxint] at hfits
    have hnat : hd.filemax = hd.filemax.toNat := by omega
    refine ⟨(hcounts.trans hcount).trans hu.byteCount, hmk, .inl ?_⟩
    have hhas' : ((hd.trailer p).2.2.unpacking p size).sha1HasToMeasure = publish hd.sha1HasToMeasure hd.filemax := hhas
    rw [hhas', hnat]
    exact publish_pos (by omega) (by omega)

/-! ## Closing -/

/-- `grub_close` extends a digest, and only that, exactly when as much has been hashed as
was expected. -/
theorem grubClose_extends_iff {st : State σ ι} (hon : st.performSha1 = true) :
    (∃ st' digest, grubClose p st = some st' ∧ st'.events = st.events ++ if p.tpm then [.updatePcr pcrKernel digest] else []) ↔
      st.sha1ByteCount = st.sha1HasToMeasure := by
  have hoff : ¬ st.performSha1 = false := by simp [hon]
  constructor
  · rintro ⟨st', digest, hclose, hevents⟩
    have hsame := List.append_cancel_left ((grubClose_events hclose).symm.trans hevents)
    by_contra hne
    rw [State.closeEvents, if_neg hoff, if_pos hne] at hsame
    split at hsame <;> cases hsame
  · intro hall
    have hcloses : ∃ st', grubClose p st = some st' := by
      simp only [grubClose, if_pos hon, if_neg (not_not.2 hall)]
      split
      · exact ⟨_, rfl⟩
      · exact ⟨_, rfl⟩
    obtain ⟨st', hclose⟩ := hcloses
    refine ⟨st', (Sha1.sha1Finish st.mySha1).1, hclose, ?_⟩
    rw [grubClose_events hclose, State.closeEvents, if_neg hoff, if_neg (not_not.2 hall)]

/-- What has been hashed of an open file comes to what is expected. A block list must be
plain, and the first read that delivers must deliver all of it, with another read behind
it. For a file behind a driver the links in front of it are counted too, unless
`measure_kernel` is set: only one of all these may be other than empty, and a compressed
file must be unpacked from its last buffer. -/
def AddsUp (measureKernel : Bool) (st : State σ ι) (lens : List Int) (off size : Nat) (taken : Nat → Nat) : Prop :=
  if st.blockFile then
    measureKernel = false ∧ st.compressedFile = false ∧ firstSize (starts st.rawFile.length 0 lens) = st.rawFile.length
  else
    let links := if measureKernel then [] else st.links
    if st.compressedFile then
      if links.sum = 0 then 0 < size ∧ rawPosition st.rawFile.length off (taken ((size + wsize - 1) / wsize)) = st.rawFile.length
      else size = 0 ∧ Single links
    else Single (links ++ [st.rawFile.length])

theorem firstSize_zero {links : List Nat} (h : links.sum = 0) : firstSize links = 0 :=
  Nat.eq_zero_of_le_zero (h ▸ firstSize_le_sum links)

theorem firstSize_ne_zero {links : List Nat} (h : links.sum ≠ 0) : firstSize links ≠ 0 := by
  induction links with
  | nil => exact absurd rfl h
  | cons n links ih =>
    rw [List.sum_cons] at h
    rw [firstSize]
    split
    · exact ih (by omega)
    · assumption

/-- The numbers of a file behind a driver. -/
theorem Finished.adds_iff {off size : Nat} {taken : Nat → Nat} (links : List Nat) {st : State σ ι}
    (h : Finished F links.sum (BitVec.ofNat 32 (firstSize (links ++ [F.length]))) off size taken st)
    (hfits : links.sum + F.length < 2 ^ 32) :
    st.sha1ByteCount = st.sha1HasToMeasure ↔
      if st.compressedFile then
        if links.sum = 0 then 0 < size ∧ rawPosition F.length off (taken ((size + wsize - 1) / wsize)) = F.length
        else size = 0 ∧ Single links
      else Single (links ++ [F.length]) := by
  have hsum : (links ++ [F.length]).sum = links.sum + F.length := by rw [List.sum_append, List.sum_singleton]
  have hle := firstSize_le_sum (links ++ [F.length])
  rw [← BitVec.toNat_inj, h.expects, ofNat_toNat (by omega), h.count, hashedBytes]
  split
  next hc =>
    obtain ⟨hpositive, hbehind⟩ := h.behind hc
    rw [firstSize_append]
    by_cases hzero : links.sum = 0
    · rw [if_pos hzero, if_pos (firstSize_zero hzero), if_pos hzero]
      split <;> omega
    · have hbelow := firstSize_le_sum links
      rw [if_neg hzero, if_neg (firstSize_ne_zero hzero), if_neg hzero]
      split
      next hempty => rw [sum_eq_firstSize_iff, and_iff_right hempty]
      next hsize =>
        have hraw := hbehind (Nat.pos_of_ne_zero hsize)
        exact iff_of_false (by omega) fun hall => hsize hall.1
  next hc => rw [← hsum, sum_eq_firstSize_iff]

/-- An open file is read once from its beginning to its end. -/
structure ReadThrough (p : Platform σ ι) (st : State σ ι) (reads : List (Dest × Int)) : Prop where
  opened : st.errnum = .none
  well : ReadsWell p st reads
  faulted : (readAll p st reads).faulted = false
  all : (readAll p st reads).filepos = (readAll p st reads).filemax

theorem AddsUp.of_blocks {measureKernel : Bool} {st : State σ ι} {lens : List Int} {off size : Nat} {taken : Nat → Nat}
    (hb : st.blockFile = true) : AddsUp measureKernel st lens off size taken ↔
      measureKernel = false ∧ st.compressedFile = false ∧ firstSize (starts st.rawFile.length 0 lens) = st.rawFile.length := by
  unfold AddsUp
  rw [if_pos hb]

theorem AddsUp.of_driver {measureKernel : Bool} {st : State σ ι} {lens : List Int} {off size : Nat} {taken : Nat → Nat}
    (hb : st.blockFile = false) (links : List Nat) (hlinks : links = if measureKernel then [] else st.links) :
    AddsUp measureKernel st lens off size taken ↔
      if st.compressedFile then
        if links.sum = 0 then 0 < size ∧ rawPosition st.rawFile.length off (taken ((size + wsize - 1) / wsize)) = st.rawFile.length
        else size = 0 ∧ Single links
      else Single (links ++ [st.rawFile.length]) := by
  unfold AddsUp
  rw [if_neg (by rw [hb]; decide), hlinks]

/-- A file behind a driver has been opened without `measure_kernel`. -/
theorem path_fresh (hp : p.Healthy) {w s st₁ : State σ ι} {walk : DirWalk σ} (hready : Ready w) (hu : Unmeasured w) (hpos : w.filepos = 0)
    (hon : w.performSha1 = true) (hm : w.measureKernel = false) (hwalked : runWalk p walk w = (true, s))
    (hopened : openMeasured p s = (true, st₁)) (hf : st₁.faulted = false) (hfits : s.links.sum < 2 ^ 32) :
    Fresh p s.file.bytes s.links.sum (BitVec.ofNat 32 (firstSize (s.links ++ [s.file.bytes.length]))) st₁ := by
  have hreached := runWalk_reached hp walk hready hwalked
  have hwalk := walked_flags hwalked
  have hstart : Linked w := ⟨by rw [hu.byteCount, hu.links]; rfl, by rw [hu.hasToMeasure, hu.links]; rfl,
    by rw [hu.links]; exact fun n hn => absurd hn List.not_mem_nil⟩
  have hfs : s.faulted = false := (openMeasured_agree (by rw [hopened]; exact hf)).1
  have hlinked := runWalk_linked hp walk hstart hready hon hm hpos hwalked hfs
  have hcounted : Counted s.links.sum s := ⟨hreached, hwalk.performSha1.trans hon, by rw [hlinked.count, ofNat_toNat hfits]⟩
  have hfresh := openMeasured_fresh hp hcounted (hwalk.measureKernel.trans hm) hopened hf
  rwa [hlinked.published, publish_firstSize (firstSize_fits hlinked.fit)] at hfresh

/-- A file behind a driver. -/
theorem path_adds_iff (hp : p.Healthy) {off size : Nat} {taken : Nat → Nat} {w s st₁ : State σ ι} {walk : DirWalk σ} (hready : Ready w)
    (hu : Unmeasured w) (hpos : w.filepos = 0) (hon : w.performSha1 = true) (hwalked : runWalk p walk w = (true, s))
    (hopened : openMeasured p s = (true, st₁)) {reads : List (Dest × Int)} (hread : ReadThrough p st₁ reads)
    (hfits : st₁.links.sum + st₁.rawFile.length < 2 ^ 32)
    (hunzips : st₁.compressedFile = true → Unzips p st₁.rawFile off size taken st₁) :
    (readAll p st₁ reads).sha1ByteCount = (readAll p st₁ reads).sha1HasToMeasure ↔
      AddsUp w.measureKernel st₁ (reads.map Prod.snd) off size taken := by
  have hf₁ : st₁.faulted = false := readAll_faulted hread.faulted
  have hreached := runWalk_reached hp walk hready hwalked
  have hwalk := walked_flags hwalked
  have hons : s.performSha1 = true := hwalk.performSha1.trans hon
  have hlinks := openMeasured_links hons hopened
  have hkept := readAll_settings (p := p) reads st₁
  have hcomp : (readAll p st₁ reads).compressedFile = st₁.compressedFile := congrArg Settings.compressedFile hkept
  obtain ⟨hb, hsame⟩ := openMeasured_kept hreached hons hopened
  have hraw : st₁.rawFile = s.file.bytes := by rw [State.rawFile, if_neg (by rw [hb]; decide), hsame]
  by_cases hm : w.measureKernel = true
  · -- all has been hashed for the copy
    obtain ⟨-, hcount, -⟩ := runWalk_unmeasured walk hwalked (.inl hm)
    have hzero : s.sha1ByteCount.toNat = 0 := by
      rw [hcount, hu.byteCount]
      rfl
    have hms := hwalk.measureKernel.trans hm
    have hcounted : Counted 0 s := ⟨hreached, hons, hzero⟩
    rw [hraw] at hunzips hfits
    obtain ⟨hdone, hmk, hpub⟩ := openMeasured_finished hp hcounted hms hopened hf₁ hread.opened hunzips
    obtain ⟨hcounts, hhas⟩ := memory_run (p := p) reads hmk
    have hexpects : (readAll p st₁ reads).sha1HasToMeasure = st₁.sha1HasToMeasure := by
      rcases hhas with hsame | hpublished
      · rw [hsame]
      · rw [hpublished, hpub]
    have hfirst : firstSize ([] ++ [s.file.bytes.length]) = s.file.bytes.length := by
      rw [firstSize_append, if_pos (firstSize_zero List.sum_nil)]
    rw [← hfirst] at hdone
    have hadds := Finished.adds_iff [] hdone (by rw [List.sum_nil]; omega)
    rw [hcounts, hexpects, hadds, AddsUp.of_driver hb [] (by rw [if_pos hm]), hraw]
  · have hm' := Bool.eq_false_iff.2 hm
    rw [hraw] at hunzips hfits
    rw [hlinks] at hfits
    have hfresh := path_fresh hp hready hu hpos hon hm' hwalked hopened hf₁ (by omega)
    have hdone := hfresh.run hp hunzips hfits hread.well hread.faulted hread.all
    rw [Finished.adds_iff s.links hdone hfits, AddsUp.of_driver hb s.links (by rw [hm', hlinks]; rfl), hcomp, hraw]

/-- A block list. -/
theorem blocks_adds_iff (hp : p.Healthy) {off size : Nat} {taken : Nat → Nat} {s st₁ : State σ ι} (h : OnBlocks s) (hu : Unmeasured s)
    (hon : s.performSha1 = true) (hopened : gunzipTestHeader p s = (true, st₁)) {reads : List (Dest × Int)}
    (hread : ReadThrough p st₁ reads) :
    (readAll p st₁ reads).sha1ByteCount = (readAll p st₁ reads).sha1HasToMeasure ↔
      AddsUp s.measureKernel st₁ (reads.map Prod.snd) off size taken := by
  have hf₁ : st₁.faulted = false := readAll_faulted hread.faulted
  have hlen := h.size
  have hpositive := h.positive
  have hfits := h.fits
  simp only [maxint] at hfits
  rw [AddsUp.of_blocks ((testHeader_blockFile hopened).trans h.blockFile)]
  by_cases hm : s.measureKernel = true
  · obtain ⟨hzero, hmk, hexpects⟩ := testHeader_unserved h hu hm hopened
    obtain ⟨hcounts, hhas⟩ := memory_run (p := p) reads hmk
    refine iff_of_false (fun hall => ?_) (fun hc => absurd (hm.symm.trans hc.1) (by decide))
    rw [hcounts, hzero] at hall
    have hall' := hread.all
    rcases hhas with hsame | hpub
    · rw [hsame] at hall hall'
      rcases hexpects with hne | ⟨hstart, hmax⟩
      · exact hne hall.symm
      · omega
    · rw [hpub] at hall
      rcases hexpects with hne | ⟨-, hmax⟩
      · exact publish_ne_zero hne hall.symm
      · have hnat : st₁.filemax = st₁.filemax.toNat := by omega
        rw [hnat] at hall
        exact publish_pos (by omega) (by omega) hall.symm
  · have hm' := Bool.eq_false_iff.2 hm
    rcases testHeader_listed hp h hu hon hm' hopened hf₁ with hlisted | hshort
    · obtain ⟨pos, hrun, hkept⟩ := hlisted.run hp (by omega) reads hread.faulted
      have hraw := hlisted.opened.rawFile
      have hall := hread.all
      have hmax := hrun.opened.filemax
      have hat := hlisted.filepos
      have hexpects : (readAll p st₁ reads).sha1HasToMeasure = BitVec.ofNat 32 s.rawFile.length := by
        rcases hkept with hsame | hhas
        · rw [hsame] at hall hmax
          omega
        · exact hhas
      have hcount := hrun.byteCount
      have hbelow := hrun.counted
      rw [if_pos rfl] at hcount hbelow
      rw [hcount, hexpects, hraw, ← BitVec.toNat_inj, ofNat_toNat (by omega), ofNat_toNat (by omega)]
      exact ⟨fun heq => ⟨hm', hlisted.opened.compressedFile, heq⟩, fun hc => hc.2.2⟩
    · have hrun := hshort.run hp (by omega) reads hread.well hread.faulted
      refine iff_of_false (fun hall => ?_) (fun hc => absurd (hshort.compressedFile.symm.trans hc.2.1) (by decide))
      have hhas : (readAll p st₁ reads).sha1HasToMeasure = BitVec.ofNat 32 s.rawFile.length := hrun.settled.published
      have hbelow := hrun.short
      rw [hall, hhas, ofNat_toNat (by omega)] at hbelow
      exact Nat.lt_irrefl _ hbelow

theorem Unzips.repaired {off size : Nat} {taken : Nat → Nat} {st : State σ ι} (h : Unzips p F off size taken st) :
    Unzips p.repaired F off size taken st := ⟨h.dataOffset, h.inside, h.filemax, h.packs.repaired⟩

theorem ReadThrough.agree {st : State σ ι} {reads : List (Dest × Int)} (h : ReadThrough p st reads) :
    readAll p st reads = readAll p.repaired st reads ∧ ReadThrough p.repaired st reads := by
  have hsame : readAll p st reads = readAll p.repaired st reads := runCalls_agree (readCalls reads) h.faulted
  refine ⟨hsame, h.opened, h.well.agree reads h.faulted, ?_, ?_⟩
  · rw [← hsame]
    exact h.faulted
  · rw [← hsame]
    exact h.all

theorem grubOpen_repaired {st st₁ : State σ ι} {filename : FileName} (h : grubOpen p st filename = (true, st₁))
    (hf : st₁.faulted = false) : grubOpen p.repaired st filename = (true, st₁) := by
  rw [← h]
  exact (grubOpen_agree st filename (by rw [h]; exact hf)).2.symm

/-- What has been hashed and what is expected, at the end. -/
theorem ReadThrough.adds_iff {off size : Nat} {taken : Nat → Nat} {st st₁ : State σ ι} {filename : FileName}
    {reads : List (Dest × Int)} (hon : st.performSha1 = true) (hopen : grubOpen p st filename = (true, st₁))
    (hread : ReadThrough p st₁ reads) (hfits : st₁.links.sum + st₁.rawFile.length < 2 ^ 32)
    (hunzips : st₁.compressedFile = true → Unzips p st₁.rawFile off size taken st₁) :
    (readAll p st₁ reads).sha1ByteCount = (readAll p st₁ reads).sha1HasToMeasure ↔
      AddsUp st.measureKernel st₁ (reads.map Prod.snd) off size taken := by
  have hf₁ : st₁.faulted = false := readAll_faulted hread.faulted
  obtain ⟨hsame, hread'⟩ := hread.agree
  rw [hsame]
  cases grubOpen_opened (grubOpen_repaired hopen hf₁) with
  | path w s walk ready unmeasured filepos flags walked opened =>
    rw [← flags.measureKernel]
    exact path_adds_iff p.repaired_healthy ready unmeasured filepos (flags.performSha1.trans hon) walked opened hread' hfits
      fun hc => (hunzips hc).repaired
  | blocks s on unmeasured flags opened =>
    rw [← flags.measureKernel]
    exact blocks_adds_iff p.repaired_healthy on unmeasured (flags.performSha1.trans hon) opened hread'

/-- Measuring stays on while the file is open. -/
theorem readAll_on {st st₁ : State σ ι} {filename : FileName} {reads : List (Dest × Int)} (hon : st.performSha1 = true)
    (hopen : grubOpen p st filename = (true, st₁)) : (readAll p st₁ reads).performSha1 = true := by
  have hflags := grubOpen_flags (p := p) st filename
  rw [hopen] at hflags
  have hkept := congrArg Settings.performSha1 (readAll_settings (p := p) reads st₁)
  exact hkept.trans (hflags.performSha1.trans hon)

/-- **Completeness of the measurement**: a file is opened and read once from its beginning
to its end without an error, with measuring on. `grub_close` extends one digest and
reports nothing exactly when what is hashed adds up. The drivers bound the length of the
links they follow, and a compressed file is one that `inflate` unpacks. -/
theorem grubClose_complete_iff {off size : Nat} {taken : Nat → Nat} {st st₁ : State σ ι} {filename : FileName}
    {reads : List (Dest × Int)} (hon : st.performSha1 = true) (hopen : grubOpen p st filename = (true, st₁))
    (hread : ReadThrough p st₁ reads) (hfits : st₁.links.sum + st₁.rawFile.length < 2 ^ 32)
    (hunzips : st₁.compressedFile = true → Unzips p st₁.rawFile off size taken st₁) :
    (∃ st₂ digest, grubClose p (readAll p st₁ reads) = some st₂ ∧
        st₂.events = (readAll p st₁ reads).events ++ if p.tpm then [.updatePcr pcrKernel digest] else []) ↔
      AddsUp st.measureKernel st₁ (reads.map Prod.snd) off size taken := by
  rw [grubClose_extends_iff (readAll_on hon hopen)]
  exact hread.adds_iff hon hopen hfits hunzips

theorem grubClose_complete_f : (∃ st₂ digest,
      grubClose diskWithF (readAll diskWithF openF [(.local fun _ => 0, 2), (.local fun _ => 0, 1)]) = some st₂ ∧
      st₂.events = (readAll diskWithF openF [(.local fun _ => 0, 2), (.local fun _ => 0, 1)]).events ++
        if diskWithF.tpm then [.updatePcr pcrKernel digest] else []) ↔
    AddsUp false openF [2, 1] 0 0 id := by
  have hopen : grubOpen diskWithF { State.atBoot () () 640 65536 with performSha1 := true } ⟨[0x2F, 0x66], by decide⟩ =
      (true, openF) := Prod.ext (by decide +kernel) rfl
  have hread : ReadThrough diskWithF openF [(.local fun _ => 0, 2), (.local fun _ => 0, 1)] :=
    ⟨by decide +kernel, ⟨by decide +kernel, by decide +kernel, trivial⟩, by decide +kernel, by decide +kernel⟩
  exact grubClose_complete_iff rfl hopen hread (by decide +kernel) fun hc => absurd hc (by decide +kernel)

/-- The first sector of the disk is open as the block list `0+1`. -/
def openSector : State Unit Unit :=
  (grubOpen diskWithF { State.atBoot () () 640 65536 with performSha1 := true } ⟨[0x30, 0x2B, 0x31], sector_fits⟩).2

/-- A sector is read as a block list, in one piece: it is not measured. -/
theorem sector_unmeasured :
    grubOpen diskWithF { State.atBoot () () 640 65536 with performSha1 := true } ⟨[0x30, 0x2B, 0x31], by decide⟩ = (true, openSector) ∧
      ReadThrough diskWithF openSector [(.local fun _ => 0, 512)] ∧
      ¬ ∃ st₂ digest, grubClose diskWithF (readAll diskWithF openSector [(.local fun _ => 0, 512)]) = some st₂ ∧
        st₂.events = (readAll diskWithF openSector [(.local fun _ => 0, 512)]).events ++
          if diskWithF.tpm then [.updatePcr pcrKernel digest] else [] := by
  refine ⟨Prod.ext (by decide +kernel) rfl, ⟨by decide +kernel, ⟨by decide +kernel, trivial⟩, by decide +kernel, by decide +kernel⟩, ?_⟩
  rw [grubClose_extends_iff (by decide +kernel)]
  decide +kernel

end TrustedGrub.Disk
