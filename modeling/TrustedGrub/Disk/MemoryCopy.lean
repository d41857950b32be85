import TrustedGrub.Disk.Windows

/-!
# The copy in memory

With `measure_kernel` set, `grub_open` copies the file and `grub_read` serves from the
copy. `Delivers` is the state of a file that is read directly and holds the bytes `G`;
the reads of the copy and the direct ones are compared call by call.
-/

namespace TrustedGrub.Disk
open Fips180 (Byte Word Words)
open Memory (segment slice store)

variable {σ ι : Type} {p : Platform σ ι} {F G : List Byte}

/-- Compressed data: whenever unpacking starts afresh, they unpack to `G`. -/
structure Decodes (p : Platform σ ι) (data G : List Byte) : Prop where
  windows : ∀ s k, k * wsize < G.length → ∃ state n, feedWindows p data (p.resetInflate s) (k + 1) = .window state n
  bytes : ∀ s, slice (unpackedByte p data (p.resetInflate s)) 0 G.length = G

/-- A direct read delivers bytes of `G`, plain or unpacked. -/
inductive Delivers (p : Platform σ ι) (G : List Byte) (st : State σ ι) : Prop where
  | plain (opened : RawOpen st G)
  | packed (F : List Byte) (off : Nat) (on : Bool) (s : ι) (k : Nat) (unpacking : Unpacking p F off on (p.resetInflate s) k st)
      (size : st.filemax = G.length) (decodes : Decodes p (F.drop off) G)

theorem Delivers.filemax {st : State σ ι} (h : Delivers p G st) : st.filemax = G.length := by
  cases h with
  | plain opened => exact opened.filemax
  | packed F off on s k unpacking size decodes => exact size

/-- A read within the file finds its windows. -/
theorem Decodes.unpacks {data : List Byte} (h : Decodes p data G) (s : ι) {k pos len : Nat} (hend : pos + len ≤ G.length)
    (hk : ∃ state n, feedWindows p data (p.resetInflate s) k = .window state n) :
    ∃ state n, feedWindows p data (p.resetInflate s) (windowsAfter k pos len) = .window state n := by
  unfold windowsAfter
  split
  next => exact hk
  next hlen =>
    apply h.windows
    simp only [wsize]
    omega

/-- What a read that delivers comes to. -/
structure Delivered (p : Platform σ ι) (G : List Byte) (pos n : Nat) (buf : Dest) (r : Int × (Nat → Byte) × State σ ι) : Prop where
  count : r.1 = n
  bytes : r.2.1 = store buf.bytes 0 (segment G pos n)
  filepos : r.2.2.filepos = (pos + n : Nat)
  delivers : Delivers p G r.2.2

theorem Decodes.delivered {on : Bool} {off pos n k : Nat} (h : Decodes p (F.drop off) G) (s : ι)
    (hk : ∃ state m, feedWindows p (F.drop off) (p.resetInflate s) k = .window state m) (hend : pos + n ≤ G.length)
    {buf : Dest} {r : Int × (Nat → Byte) × State σ ι} (hr : Unpacks p F off on (p.resetInflate s) k pos n buf r)
    (hmax : r.2.2.filemax = G.length) : Delivered p G pos n buf r := by
  obtain ⟨state, m, hfed⟩ := h.unpacks s hend hk
  unfold Unpacks at hr
  rw [hfed] at hr
  obtain ⟨hcount, hbytes, hpos, hunpacking⟩ := hr
  have hslice := Memory.slice_segment (h.bytes s) hend
  rw [Nat.zero_add] at hslice
  exact ⟨hcount, by rw [hbytes, hslice], hpos, .packed F off on s _ hunpacking hmax h⟩

/-- The decompressor starts from where it was, or afresh. -/
theorem windowAt_fresh (s inflate : ι) (k pos : Nat) : ∃ s', (windowAt p (p.resetInflate s) inflate k pos).1 = p.resetInflate s' := by
  unfold windowAt
  split
  · exact ⟨inflate, rfl⟩
  · exact ⟨s, rfl⟩

theorem Unpacking.windowAt {on : Bool} {off k : Nat} {s₀ : ι} {st : State σ ι} (h : Unpacking p F off on s₀ k st) (inflate : ι)
    (pos : Nat) :
    ∃ state n, feedWindows p (F.drop off) (windowAt p s₀ inflate k pos).1 (windowAt p s₀ inflate k pos).2 = .window state n := by
  unfold Disk.windowAt
  split
  · exact ⟨_, _, rfl⟩
  · obtain ⟨n, -, hfed⟩ := h.window.streams
    exact ⟨_, _, hfed⟩

/-- A read of a compressed file that unpacks. -/
theorem Unpacking.delivers (hp : p.Healthy) {R : Reader σ ι} {on : Bool} (hR : Fetches p R on) {off k : Nat} {s : ι} {st t : State σ ι}
    (buf : Dest) (len : Int) (hm : st.measureKernel = false) (hmax : st.filemax = G.length) (hreaches : st.filemax ≤ st.fsmax)
    (hdecodes : Decodes p (F.drop off) G) (hskip : measureSkipped R st.aimed = t)
    (h : Unpacking p F off on (p.resetInflate s) k t) (hpos : t.filepos = st.startOf)
    (hf : (grubReadWith p R st buf len).2.2.faulted = false)
    (husable : (∀ o n, buf.usable o n = true) ∨ (grubReadWith p R st buf len).2.2.errnum = .none) :
    Delivered p G st.startOf (countAt G.length st.startOf len) buf (grubReadWith p R st buf len) := by
  have hunpacks := h.read_behind hp hR buf len hm (by omega) hreaches hskip hpos hf husable
  have hsize : st.filemax.toNat = G.length := by omega
  have hend : st.startOf ≤ G.length := by
    rw [← hsize]
    exact (saneFilepos_start st.filepos (by omega)).2
  obtain ⟨s', hs'⟩ := windowAt_fresh (p := p) s t.gzip.inflate k st.startOf
  have hk := h.windowAt t.gzip.inflate st.startOf
  rw [hsize, hs'] at hunpacks
  rw [hs'] at hk
  refine hdecodes.delivered s' hk (countAt_le hend len) hunpacks ?_
  exact (congrArg Settings.filemax (grubReadWith_keeps (p := p) hR.keeps st buf len)).trans hmax

theorem Unpacking.resumed {on : Bool} {off k : Nat} {s₀ : ι} {st : State σ ι} (h : Unpacking p F off on s₀ k st)
    (bytes : List Byte) (count : Int) : Unpacking p F off true s₀ k (st.resumed.hashed bytes count) :=
  h.of_source rfl h.errnum h.measureKernel h.compressedFile rfl h.reaches

/-- The skipped part of a read goes well if the read does. -/
theorem grubRead_measureSkipped {st : State σ ι} {buf : Dest} {len : Int} (hm : st.measureKernel = false)
    (hf : (grubRead p st buf len).2.2.faulted = false) :
    (measureSkipped (grubReadWith p (grubReadWith p noRead)) st.aimed).faulted = false := by
  have hoff : st.aimed.measureKernel = false := hm
  simp only [grubRead, grubReadWith] at hf ⊢
  rw [if_neg (by rw [hoff]; decide)] at hf
  split at hf
  · cases hf
  · exact (fileRead_agree (grubReadWith_agree (grubReadWith_agree noRead_agree)) _ _ _ hf).1

/-- **A direct read** delivers the bytes asked for, as far as the file goes. -/
theorem Delivers.read (hp : p.Healthy) {st : State σ ι} (h : Delivers p G st) (buf : Dest) (len : Int)
    (hf : (grubRead p st buf len).2.2.faulted = false)
    (husable : (∀ o n, buf.usable o n = true) ∨ (grubRead p st buf len).2.2.errnum = .none) :
    Delivered p G st.startOf (countAt G.length st.startOf len) buf (grubRead p st buf len) := by
  cases h with
  | plain opened =>
    have hreach := opened.reaches hf
    obtain ⟨driver, blocks, heq, -⟩ := raw_read hp (grubReadWith p noRead) opened buf hreach
    have hstep := raw_step hp (grubReadWith p noRead) opened buf hreach
    have hopened := opened.read hp (grubReadWith p noRead) buf hreach
    refine ⟨?_, ?_, ?_, .plain hopened⟩
    · rw [grubRead, heq]
    · rw [grubRead, heq]
    · exact hstep.filepos.trans (Nat.cast_add _ _).symm
  | packed F off on s k unpacking size decodes =>
    have hm := unpacking.measureKernel
    have hstart := (saneFilepos_start st.filepos (by omega : 0 ≤ st.filemax)).1
    have haimed : Unpacking p F off on (p.resetInflate s) k st.aimed :=
      unpacking.of_source rfl unpacking.errnum hm unpacking.compressedFile unpacking.performSha1 unpacking.reaches
    by_cases hskip : st.aimed.performSha1 ∧ st.aimed.sha1ByteCount = 0 ∧ 0 < st.aimed.filepos
    · -- the skipped part is read from the beginning, with measuring off
      have hfskip : (grubReadWith p (grubReadWith p noRead) st.aimed.rewound (.local fun _ => 0) st.aimed.filepos).2.2.faulted =
          false := by
        have hfm := grubRead_measureSkipped hm hf
        rwa [measureSkipped, if_pos hskip] at hfm
      have hrewound : Unpacking p F off false (p.resetInflate s) k st.aimed.rewound.aimed := by
        refine unpacking.of_source rfl unpacking.errnum hm unpacking.compressedFile ?_ unpacking.reaches
        rfl
      have hzero : st.aimed.rewound.startOf = 0 := saneFilepos_zero _
      have hquiet : measureSkipped (grubReadWith p noRead) st.aimed.rewound.aimed = st.aimed.rewound.aimed := by
        rw [measureSkipped, if_neg]
        exact fun hc => absurd hc.1 (by simp [State.rewound, State.aimed])
      have hsame : st.aimed.rewound.aimed.filepos = st.aimed.rewound.startOf :=  by
        have hnonneg : 0 ≤ st.aimed.rewound.filemax := by
          have hmax : st.aimed.rewound.filemax = G.length := size
          omega
        exact (saneFilepos_start _ hnonneg).1
      have hm' : st.aimed.rewound.measureKernel = false := hm
      have hnested := hrewound.delivers hp .nested (.local fun _ => 0) st.aimed.filepos hm' size unpacking.reaches decodes hquiet
        hsame hfskip (.inl fun _ _ => rfl)
      have hwhole : countAt G.length st.aimed.rewound.startOf st.aimed.filepos = st.startOf := by
        have haim : st.aimed.filepos = st.startOf := hstart
        have hle := (saneFilepos_start st.filepos (by omega : 0 ≤ st.filemax)).2
        rw [hzero, haim]
        refine countAt_self ?_
        simp only [State.startOf]
        omega
      rw [hwhole, hzero] at hnested
      have hback := hnested.filepos
      have hkeep := grubReadWith_keeps (p := p) (grubReadWith_keeps (p := p) noRead_keeps) st.aimed.rewound (.local fun _ => 0)
        st.aimed.filepos
      have hresumed : measureSkipped (grubReadWith p (grubReadWith p noRead)) st.aimed = _ := if_pos hskip
      cases hnested.delivers with
      | plain opened =>
        exact absurd (opened.compressedFile.symm.trans (congrArg Settings.compressedFile hkeep))
          (by rw [show st.aimed.rewound.settings.compressedFile = true from unpacking.compressedFile]; decide)
      | packed F' off' on' s' k' unpacking' size' decodes' =>
        refine (unpacking'.resumed _ _).delivers hp (.outer true) buf len hm size unpacking.reaches decodes' hresumed ?_ hf husable
        rw [Nat.zero_add] at hback
        exact hback
    · have hquiet : measureSkipped (grubReadWith p (grubReadWith p noRead)) st.aimed = st.aimed := by
        rw [measureSkipped, if_neg hskip]
      exact haimed.delivers hp (.outer on) buf len hm size unpacking.reaches decodes hquiet hstart hf husable

/-! ## Opening -/

/-- The file as it is read without the copy. -/
def State.direct (st : State σ ι) : State σ ι := { st with measureKernel := false }

theorem State.direct_of {st : State σ ι} (h : st.measureKernel = false) : st.direct = st := by
  unfold State.direct
  rw [← h]

/-- The open file holds `G`: as it is stored, or unpacked. -/
def State.Contains (p : Platform σ ι) (st : State σ ι) (G : File) : Prop :=
  if st.compressedFile then
    st.filemax = G.bytes.length ∧
      ∃ off : Nat, st.gzip.dataOffset = off ∧ off ≤ st.rawFile.length ∧ Decodes p (st.rawFile.drop off) G.bytes
  else st.rawFile = G.bytes

theorem State.Contains.plain {st : State σ ι} {G : File} (h : st.Contains p G) (hc : st.compressedFile = false) :
    st.rawFile = G.bytes := by
  unfold State.Contains at h
  rwa [if_neg (by rw [hc]; decide)] at h

theorem State.Contains.packed {st : State σ ι} {G : File} (h : st.Contains p G) (hc : st.compressedFile = true) :
    st.filemax = G.bytes.length ∧
      ∃ off : Nat, st.gzip.dataOffset = off ∧ off ≤ st.rawFile.length ∧ Decodes p (st.rawFile.drop off) G.bytes := by
  unfold State.Contains at h
  rwa [if_pos hc] at h

theorem RawOpen.direct {st : State σ ι} (h : RawOpen st F) : RawOpen st.direct F :=
  ⟨⟨rfl, h.compressedFile, h.filemax, h.stored.blocks, h.stored.driver⟩, h.errnum⟩

/-- Reads keep the file open, whether it is read directly or from memory. -/
theorem Reads.direct (hp : p.Healthy) {st s : State σ ι} (h : Reads p st s) (hst : RawOpen st.direct F)
    (hf : s.faulted = false) : RawOpen s.direct F := by
  induction h with
  | refl => exact hst
  | @read s h bytes len ih =>
    have hbefore := ih (grubRead_agree _ _ _ hf).1
    by_cases hm : s.measureKernel = true
    · rw [grubRead, memory_read s hm]
      exact ⟨⟨rfl, hbefore.compressedFile, hbefore.filemax, hbefore.stored.blocks, hbefore.stored.driver⟩, hbefore.errnum⟩
    · rw [State.direct_of (Bool.eq_false_iff.2 hm)] at hbefore
      exact (hbefore.read hp _ (.local bytes) (hbefore.reaches hf)).direct
  | seek _ offset ih => exact (ih hf).seek offset

theorem unpacking_rawFile {st : State σ ι} (hc : st.compressedFile = false) (size : Int) :
    (st.unpacking p size).rawFile = st.rawFile := by
  have hplain : st.rawSize = st.filemax := if_neg (by rw [hc]; decide)
  have hsize : (st.unpacking p size).rawSize = st.rawSize := by
    rw [hplain]
    rfl
  unfold State.rawFile
  rw [hsize]
  rfl

/-- The header of a file that holds `G`. -/
theorem testHeader_delivers (hp : p.Healthy) {G : File} {st st' : State σ ι} (hst : RawOpen st.direct F)
    (heq : gunzipTestHeader p st = (true, st')) (hf : st'.faulted = false) (hc : st'.Contains p G) :
    Delivers p G.bytes st'.direct ∧ st'.filepos = 0 := by
  rcases testHeader_cases heq with ⟨t, hreads, rfl⟩ | ⟨hd, size, hreads, -, rfl⟩
  · have hopen := hreads.direct hp hst hf
    refine ⟨?_, rfl⟩
    have hraw : t.direct.rawFile = G.bytes := hc.plain hopen.compressedFile
    rw [hopen.rawFile] at hraw
    subst hraw
    exact .plain hopen.atStart
  · have hft : (hd.trailer p).2.2.faulted = false := hf
    have hopen := hreads.direct hp hst (grubRead_agree _ _ _ hft).1
    have hread := reads_trailer p hd
    have htrailer := hread.direct hp hopen.atTrailer hft
    refine ⟨?_, rfl⟩
    obtain ⟨hsize, off, hoff, hle, hdecodes⟩ := hc.packed rfl
    have hsame : ((hd.trailer p).2.2.unpacking p size).rawFile = (hd.trailer p).2.2.rawFile :=
      unpacking_rawFile htrailer.compressedFile size
    rw [hsame] at hle hdecodes
    have hraw : (hd.trailer p).2.2.rawFile = F := htrailer.rawFile
    rw [hraw] at hle hdecodes
    have hoff' : (hd.trailer p).2.2.direct.gzip.dataOffset = off := hoff
    have hstart := htrailer.unpackingStart (p := p) hoff' hle size
    exact .packed F off _ _ 0 hstart hsize hdecodes

/-- Measuring is on, and the file is read from the device to its copy. -/
theorem Delivers.copyPrepared {t : State σ ι} (h : Delivers p G t.direct) : Delivers p G (t.probed true).copyPrepared := by
  cases h with
  | plain opened =>
    exact .plain ⟨⟨rfl, opened.compressedFile, opened.filemax, opened.stored.blocks, opened.stored.driver⟩, opened.errnum⟩
  | packed F off on s k unpacking size decodes =>
    refine .packed F off true s k ?_ size decodes
    exact unpacking.of_source rfl unpacking.errnum rfl unpacking.compressedFile rfl unpacking.reaches

theorem Delivers.loaded {st : State σ ι} (h : Delivers p G st) (addr : Nat) (bytes : Nat → Byte) : Delivers p G (st.loaded addr bytes) := by
  cases h with
  | plain opened => exact .plain (opened.loaded addr bytes)
  | packed F off on s k unpacking size decodes =>
    refine .packed F off on s k ?_ size decodes
    exact unpacking.of_source rfl unpacking.errnum unpacking.measureKernel unpacking.compressedFile unpacking.performSha1
      unpacking.reaches

theorem Delivers.copied {t : State σ ι} (h : Delivers p G t) (addr : Nat) (bytes : Nat → Byte) :
    Delivers p G (t.loaded addr bytes).copied.direct := by
  cases h with
  | plain opened =>
    exact .plain ⟨⟨rfl, opened.compressedFile, opened.filemax, opened.stored.blocks, opened.stored.driver⟩, opened.errnum⟩
  | packed F off on s k unpacking size decodes =>
    refine .packed F off on s k ?_ size decodes
    exact unpacking.of_source rfl unpacking.errnum rfl unpacking.compressedFile unpacking.performSha1 unpacking.reaches

/-- What has been loaded to the copy's place is its bytes. -/
theorem copied_copyBytes {st : State σ ι} {addr : Nat} (hreal : st.kernelRealAddr = addr) (bytes : Nat → Byte) {i : Nat}
    (hi : i < 2 ^ 32) : (st.loaded addr bytes).copied.copyBytes i = bytes i := by
  subst hreal
  have hat : ((st.kernelRealAddr + i) % 2 ^ 32 + (2 ^ 32 - st.kernelRealAddr % 2 ^ 32)) % 2 ^ 32 = i := by omega
  exact congrArg bytes hat

theorem testHeader_blockFile {st st' : State σ ι} (h : gunzipTestHeader p st = (true, st')) : st'.blockFile = st.blockFile := by
  rcases testHeader_cases h with ⟨t, hreads, rfl⟩ | ⟨hd, size, hreads, -, rfl⟩
  · exact congrArg Settings.blockFile hreads.settings
  · have hread := reads_trailer p hd
    exact (congrArg Settings.blockFile hread.settings).trans (congrArg Settings.blockFile hreads.settings)

/-- What opening leaves of a file that holds `G`: direct reads deliver it, and so does
the copy, if one has been `made`. -/
structure Copied (p : Platform σ ι) (G : List Byte) (made : Prop) (st : State σ ι) : Prop where
  measureKernel : st.measureKernel = true
  filepos : st.filepos = 0
  direct : Delivers p G st.direct
  copy : made → slice st.copyBytes 0 G.length = G

theorem copyKernel_copied (hp : p.Healthy) {G : File} {t : State σ ι} (h : Delivers p G.bytes t.direct)
    (hlen : (t.probed true).copyPrepared.copyLength = G.bytes.length) (hf : (copyKernel p (t.probed true)).faulted = false)
    (herr : (copyKernel p (t.probed true)).errnum = .none) : Copied p G.bytes True (copyKernel p (t.probed true)) := by
  have hstart : (t.probed true).copyPrepared.startOf = 0 := saneFilepos_zero _
  have hcount : countAt G.bytes.length (t.probed true).copyPrepared.startOf (t.probed true).copyPrepared.copyLength =
      G.bytes.length := by rw [hstart, hlen, countAt_self (Nat.le_refl _)]
  have hread := h.copyPrepared.read hp ((t.probed true).copyPrepared.physical (t.probed true).copyPrepared.kernelRealAddr)
    (t.probed true).copyPrepared.copyLength hf (.inr herr)
  have hreal : _ = (t.probed true).copyPrepared.kernelRealAddr := congrArg Settings.kernelRealAddr
    (grubRead_keeps (p := p) (t.probed true).copyPrepared
      ((t.probed true).copyPrepared.physical (t.probed true).copyPrepared.kernelRealAddr) (t.probed true).copyPrepared.copyLength)
  have hbytes := hread.bytes
  have hfits := G.fits
  rw [hcount, hstart, Memory.segment_all] at hbytes
  refine ⟨rfl, rfl, hread.delivers.copied _ _, fun _ => ?_⟩
  calc slice (copyKernel p (t.probed true)).copyBytes 0 G.bytes.length
      = slice (grubRead p (t.probed true).copyPrepared
          ((t.probed true).copyPrepared.physical (t.probed true).copyPrepared.kernelRealAddr)
          (t.probed true).copyPrepared.copyLength).2.1 0 G.bytes.length :=
        Memory.slice_congr fun x _ hx => copied_copyBytes hreal _ (by omega)
    _ = G.bytes := by rw [hbytes, Memory.slice_store _ _ rfl]

theorem copyLength_plain {t : State σ ι} (hc : t.compressedFile = false) :
    (t.probed true).copyPrepared.copyLength = t.kernelFilesize := by
  have hc' : (t.probed true).copyPrepared.compressedFile = false := hc
  unfold State.copyLength
  rw [if_neg (by rw [hc']; decide)]
  rfl

theorem copyLength_packed {t : State σ ι} (hc : t.compressedFile = true) :
    (t.probed true).copyPrepared.copyLength = t.filemax := if_pos hc

/-- The copy does not change what the file holds. -/
theorem copyKernel_contains {G : File} {t : State σ ι} (hb : t.blockFile = false) (h : (copyKernel p (t.probed true)).Contains p G) :
    t.Contains p G := by
  have hkeep := grubRead_keeps (p := p) (t.probed true).copyPrepared
    ((t.probed true).copyPrepared.physical (t.probed true).copyPrepared.kernelRealAddr) (t.probed true).copyPrepared.copyLength
  have hcomp : (copyKernel p (t.probed true)).compressedFile = t.compressedFile := congrArg Settings.compressedFile hkeep
  have hblock : (copyKernel p (t.probed true)).blockFile = t.blockFile := congrArg Settings.blockFile hkeep
  have hmax : (copyKernel p (t.probed true)).filemax = t.filemax := congrArg Settings.filemax hkeep
  have hoff : (copyKernel p (t.probed true)).gzip.dataOffset = t.gzip.dataOffset := congrArg Settings.gzipDataOffset hkeep
  have hfile : (copyKernel p (t.probed true)).file = t.file := congrArg Settings.file hkeep
  have hraw : (copyKernel p (t.probed true)).rawFile = t.rawFile := by
    unfold State.rawFile
    rw [hblock, hb, hfile]
    rfl
  unfold State.Contains at h ⊢
  rwa [hcomp, hmax, hoff, hraw] at h

/-- The end of `grub_open` with measuring on. -/
theorem openMeasured_copied (hp : p.Healthy) {G : File} {st st' : State σ ι} (h : Reached st) (hm : st.measureKernel = true)
    (hon : st.performSha1 = true) (heq : openMeasured p st = (true, st')) (hf : st'.faulted = false) (herr : st'.errnum = .none)
    (hc : st'.Contains p G) : Copied p G.bytes True st' := by
  unfold openMeasured at heq
  simp only [if_pos hon, if_pos hm] at heq
  generalize hr : gunzipTestHeader p st.probing = r at heq
  obtain ⟨temp, t⟩ := r
  obtain ⟨rfl, hs⟩ := Prod.mk.inj heq
  rw [hm] at hs
  subst hs
  have hft : t.faulted = false := (copyKernel_agree (p := p) (t.probed true) hf).1
  have hopen : RawOpen st.probing st.file.bytes := h.probing.rawOpen rfl
  obtain ⟨-, -, -, -, hsize, hkind, -⟩ := header_quiet hp hopen rfl st.file.fits hr hft
  have hblock : t.blockFile = false := by
    have hflags := (testHeader_blockFile hr)
    exact hflags.trans h.blockFile
  have hct := copyKernel_contains hblock hc
  obtain ⟨hdelivers, -⟩ := testHeader_delivers hp hopen.direct hr hft hct
  refine copyKernel_copied hp hdelivers ?_ hf herr
  rcases hkind with hplain | hpacked
  · have hprobing : st.probing.kernelFilesize = st.filemax := if_pos hm
    rw [copyLength_plain hplain.compressedFile, hsize, hprobing, h.filemax, ← hct.plain hplain.compressedFile, hplain.rawFile]
  · rw [copyLength_packed hpacked.compressedFile]
    exact (hct.packed hpacked.compressedFile).1

/-- **Opening with `measure_kernel` set**: direct reads deliver what the file holds, and a
copy has been made of a file that a driver has opened, if measuring is on. -/
theorem OpenedFrom.copied (hp : p.Healthy) {G : File} {st st' : State σ ι} (h : OpenedFrom p st st') (hm : st.measureKernel = true)
    (hf : st'.faulted = false) (herr : st'.errnum = .none) (hc : st'.Contains p G) :
    Copied p G.bytes (st.performSha1 = true ∧ st'.blockFile = false) st' := by
  cases h with
  | path w s walk ready unmeasured filepos flags walked opened =>
    have hreached := runWalk_reached hp walk ready walked
    have hwalk := (walked_flags walked).trans flags
    have hms : s.measureKernel = true := hwalk.measureKernel.trans hm
    by_cases hon : st.performSha1 = true
    · have hcopied := openMeasured_copied hp hreached hms (hwalk.performSha1.trans hon) opened hf herr hc
      exact ⟨hcopied.measureKernel, hcopied.filepos, hcopied.direct, fun _ => hcopied.copy trivial⟩
    · unfold openMeasured at opened
      rw [if_neg (by rw [hwalk.performSha1]; exact hon)] at opened
      have hdirect : Reached s.direct :=
        ⟨hreached.errnum, hreached.compressedFile, hreached.blockFile, hreached.mounted, hreached.filemax, hreached.filepos⟩
      obtain ⟨hdelivers, hpos⟩ := testHeader_delivers hp (hdirect.rawOpen rfl) opened hf hc
      have hkept := (testHeader_flags (p := p) s).measureKernel
      rw [opened] at hkept
      exact ⟨hkept.trans hms, hpos, hdelivers, fun hmade => absurd hmade.1 hon⟩
  | blocks s on unmeasured flags opened =>
    have hdirect : OnBlocks s.direct :=
      ⟨on.errnum, on.compressedFile, on.blockFile, on.filepos, on.cursor, on.positive, on.filemax, on.fits⟩
    obtain ⟨hdelivers, hpos⟩ := testHeader_delivers hp (hdirect.rawOpen rfl) opened hf hc
    have hkept := (testHeader_flags (p := p) s).measureKernel
    rw [opened] at hkept
    have hblock : st'.blockFile = true := (testHeader_blockFile opened).trans on.blockFile
    exact ⟨hkept.trans (flags.measureKernel.trans hm), hpos, hdelivers, fun hmade => absurd (hblock.symm.trans hmade.2) (by decide)⟩

/-! ## Call by call -/

/-- What the caller of a read sees: the count, the bytes at the destination and the
position. -/
def readOutcome (p : Platform σ ι) (st : State σ ι) (buf : Dest) (len : Int) : Int × (Nat → Byte) × Int :=
  ((grubRead p st buf len).1, (grubRead p st buf len).2.1, (grubRead p st buf len).2.2.filepos)

def Call.outcome (p : Platform σ ι) (st : State σ ι) : Call → Int × (Nat → Byte) × Int
  | .seek offset => ((grubSeek st offset).1, fun _ => 0, (grubSeek st offset).2.filepos)
  | .read buf len => readOutcome p st buf len
  | .load addr len => readOutcome p st (st.physical addr) len

def outcomes (p : Platform σ ι) : State σ ι → List Call → List (Int × (Nat → Byte) × Int)
  | _, [] => []
  | st, call :: calls => call.outcome p st :: outcomes p (call.run p st) calls

/-- `memcheck` accepts the place of what there is to read, and the read ends without an
error. -/
def State.Accepts (p : Platform σ ι) (G : List Byte) (st : State σ ι) (buf : Dest) (len : Int) : Prop :=
  buf.usable 0 (countAt G.length st.startOf len) = true ∧ (grubRead p st buf len).2.2.errnum = .none

def Call.Accepted (p : Platform σ ι) (G : List Byte) (st : State σ ι) : Call → Prop
  | .seek _ => True
  | .read buf len => st.Accepts p G buf len
  | .load addr len => st.Accepts p G (st.physical addr) len

def CallsAccepted (p : Platform σ ι) (G : List Byte) : State σ ι → List Call → Prop
  | _, [] => True
  | st, call :: calls => call.Accepted p G st ∧ CallsAccepted p G (call.run p st) calls

/-- The read keeps within the file `G`. -/
def State.Inside (G : List Byte) (st : State σ ι) (len : Int) : Prop := 0 ≤ len ∧ st.startOf + len ≤ G.length

/-- The read keeps within the file, and its bytes lie where the copy is. -/
def State.Serves (G : List Byte) (st : State σ ι) (len : Int) : Prop :=
  st.Inside G len ∧ slice st.copyBytes st.startOf len.toNat = segment G st.startOf len.toNat

/-- Every read of the run is of a length that the state before it allows. -/
def CallsMeet (p : Platform σ ι) (allows : State σ ι → Int → Prop) : State σ ι → List Call → Prop
  | _, [] => True
  | st, .seek offset :: calls => CallsMeet p allows (grubSeek st offset).2 calls
  | st, .read buf len :: calls => allows st len ∧ CallsMeet p allows (grubRead p st buf len).2.2 calls
  | st, .load addr len :: calls => allows st len ∧ CallsMeet p allows (grubReadTo p st addr len).2 calls

/-- Nothing is loaded over the copy of `size` bytes at `copy`. -/
def Call.Apart (copy size : Nat) : Call → Prop
  | .load addr len => ∀ i < len.toNat, ∀ j < size, (addr + i) % 2 ^ 32 ≠ (copy + j) % 2 ^ 32
  | _ => True

instance (copy size : Nat) (call : Call) : Decidable (call.Apart copy size) :=
  match call with
  | .load addr len => inferInstanceAs (Decidable (∀ i < len.toNat, ∀ j < size, (addr + i) % 2 ^ 32 ≠ (copy + j) % 2 ^ 32))
  | .seek _ => isTrue trivial
  | .read _ _ => isTrue trivial

/-- The same file, served from the copy in `m` and directly in `d`. -/
structure Twin (p : Platform σ ι) (G : List Byte) (m d : State σ ι) : Prop where
  measureKernel : m.measureKernel = true
  errnum : m.errnum = .none
  filepos : m.filepos = d.filepos
  filemax : m.filemax = d.filemax
  mem : m.mem = d.mem
  memLower : m.memLower = d.memLower
  memUpper : m.memUpper = d.memUpper
  delivers : Delivers p.repaired G d
  fits : G.length ≤ 0x7FFFFFFF

theorem Copied.twin {made : Prop} {G : File} {st : State σ ι} (h : Copied p.repaired G.bytes made st) (herr : st.errnum = .none) :
    Twin p G.bytes st st.direct :=
  ⟨h.measureKernel, herr, rfl, rfl, rfl, rfl, rfl, h.direct, G.fits⟩

theorem Twin.startOf {m d : State σ ι} (h : Twin p G m d) : m.startOf = d.startOf := by
  unfold State.startOf
  rw [h.filepos, h.filemax]

theorem Twin.physical {m d : State σ ι} (h : Twin p G m d) (addr : Nat) : m.physical addr = d.physical addr := by
  unfold State.physical memcheck
  rw [h.mem, h.memLower, h.memUpper]

theorem Delivers.startOf_le {st : State σ ι} (h : Delivers p G st) :
    saneFilepos st.filepos st.filemax = st.startOf ∧ st.startOf ≤ G.length := by
  have hmax := h.filemax
  obtain ⟨hstart, hle⟩ := saneFilepos_start st.filepos (by omega : 0 ≤ st.filemax)
  refine ⟨hstart, ?_⟩
  unfold State.startOf
  omega

/-- A read from the copy to usable memory. -/
theorem memory_read_usable {m : State σ ι} (hm : m.measureKernel = true) (herr : m.errnum = .none) {pos n : Nat}
    (hpos : m.aimed.filepos = pos) (hn : n < 2 ^ 32) {buf : Dest} (husable : buf.usable 0 n = true) :
    grubRead p m buf n = ((n : Int), store buf.bytes 0 (slice m.copyBytes pos n), { m.aimed with filepos := (pos + n : Nat) }) := by
  have hsize : ((n : Int) % 2 ^ 32).toNat = n := by omega
  have hclear : m.aimed.errnum = .none := herr
  rw [grubRead, memory_read m hm]
  simp only [copyRead, hsize, husable, hpos, hclear, Int.toNat_natCast, if_true, Nat.cast_add]
  refine Prod.ext rfl (Prod.ext rfl ?_)
  rw [← hclear]

/-- A read served from the copy is one of as many bytes as there are to read. -/
theorem State.serves_iff {st : State σ ι} {pos : Nat} (hpos : st.startOf = pos) (hle : pos ≤ G.length) (len : Int) :
    st.Serves G len ↔ len = countAt G.length pos len ∧
      slice st.copyBytes pos (countAt G.length pos len) = segment G pos (countAt G.length pos len) := by
  have hend := countAt_le hle len
  unfold State.Serves State.Inside
  rw [hpos]
  constructor
  · rintro ⟨⟨hnonneg, hin⟩, hcopy⟩
    have hlen : countAt G.length pos len = len.toNat := by
      unfold countAt
      rw [if_neg (by omega)]
    rw [hlen]
    exact ⟨(Int.toNat_of_nonneg hnonneg).symm, hcopy⟩
  · rintro ⟨hlen, hcopy⟩
    have hnat : len.toNat = countAt G.length pos len := by omega
    rw [hnat]
    exact ⟨⟨by omega, by omega⟩, hcopy⟩

/-- **The step**: a read from the copy and a direct one come to the same exactly when the
read keeps within the file and its bytes are in the copy. -/
theorem Twin.read {m d : State σ ι} (h : Twin p G m d) {buf : Dest} {len : Int} (hok : d.Accepts p G buf len)
    (hf : (grubRead p d buf len).2.2.faulted = false) :
    (readOutcome p m buf len = readOutcome p d buf len ↔ m.Serves G len) ∧
      (m.Serves G len → Twin p G (grubRead p m buf len).2.2 (grubRead p d buf len).2.2) := by
  obtain ⟨hstart, hle⟩ := h.delivers.startOf_le
  obtain ⟨husable, herrnum⟩ := hok
  have hread : Delivered p.repaired G d.startOf (countAt G.length d.startOf len) buf (grubRead p d buf len) := by
    have hagree := (grubRead_agree d buf len hf).2
    rw [hagree] at hf herrnum ⊢
    exact h.delivers.read p.repaired_healthy buf len hf (.inr herrnum)
  have hend := countAt_le hle len
  have hfits := h.fits
  have haim : m.aimed.filepos = d.startOf := by
    rw [← hstart]
    unfold State.aimed
    rw [h.filepos, h.filemax]
  rw [State.serves_iff h.startOf hle]
  by_cases hlen : len = countAt G.length d.startOf len
  · have hcopied := memory_read_usable (p := p) h.measureKernel h.errnum haim (by omega) husable
    rw [← hlen] at hcopied
    have hpos : (grubRead p m buf len).2.2.filepos = (grubRead p d buf len).2.2.filepos := by
      rw [hcopied, hread.filepos]
    have hdirect := grubRead_keeps (p := p) d buf len
    constructor
    · unfold readOutcome
      rw [hpos, hcopied, hread.count, hread.bytes]
      constructor
      · intro heq
        refine ⟨hlen, ?_⟩
        have hstores := congrArg (fun r => slice r.2.1 0 (countAt G.length d.startOf len)) heq
        dsimp only at hstores
        rwa [Memory.slice_store _ _ (Memory.slice_length _ _ _),
          Memory.slice_store _ _ (Memory.segment_length hend)] at hstores
      · rintro ⟨-, hcopy⟩
        rw [hcopy, ← hlen]
    · intro _
      refine ⟨?_, ?_, hpos, ?_, ?_, ?_, ?_, hread.delivers, hfits⟩
      · rw [hcopied]
        exact h.measureKernel
      · rw [hcopied]
        exact h.errnum
      · rw [hcopied]
        exact h.filemax.trans (congrArg Settings.filemax hdirect).symm
      · rw [hcopied]
        exact h.mem.trans (congrArg Settings.mem hdirect).symm
      · rw [hcopied]
        exact h.memLower.trans (congrArg Settings.memLower hdirect).symm
      · rw [hcopied]
        exact h.memUpper.trans (congrArg Settings.memUpper hdirect).symm
  · refine ⟨iff_of_false (fun heq => hlen ?_) fun hserves => hlen hserves.1, fun hserves => absurd hserves.1 hlen⟩
    have hcount : (grubRead p m buf len).1 = len := congrArg Prod.fst (memory_read m h.measureKernel buf len)
    exact hcount.symm.trans ((congrArg Prod.fst heq).trans hread.count)

theorem Delivers.seek {st : State σ ι} (h : Delivers p G st) (offset : Int) : Delivers p G { st with filepos := offset } := by
  cases h with
  | plain opened => exact .plain (opened.seek offset)
  | packed F off on s k unpacking size decodes =>
    refine .packed F off on s k ?_ size decodes
    exact unpacking.of_source rfl unpacking.errnum unpacking.measureKernel unpacking.compressedFile unpacking.performSha1
      unpacking.reaches

/-- A seek does not look at the copy. -/
theorem Twin.seek {m d : State σ ι} (h : Twin p G m d) (offset : Int) :
    (Call.seek offset).outcome p m = (Call.seek offset).outcome p d ∧ Twin p G (grubSeek m offset).2 (grubSeek d offset).2 := by
  simp only [Call.outcome, grubSeek, h.filemax]
  by_cases houtside : d.filemax < offset ∨ offset < 0
  · simp only [if_pos houtside]
    exact ⟨by rw [h.filepos], h⟩
  · simp only [if_neg houtside]
    exact ⟨trivial, h.measureKernel, h.errnum, rfl, rfl, h.mem, h.memLower, h.memUpper, h.delivers.seek offset, h.fits⟩

/-- The same bytes are stored at the same place. -/
theorem Twin.loaded {m d : State σ ι} (h : Twin p G m d) (addr : Nat) (bytes : Nat → Byte) :
    Twin p G (m.loaded addr bytes) (d.loaded addr bytes) :=
  ⟨h.measureKernel, h.errnum, h.filepos, h.filemax, rfl, h.memLower, h.memUpper, h.delivers.loaded addr bytes, h.fits⟩

theorem Twin.load {m d : State σ ι} (h : Twin p G m d) {addr : Nat} {len : Int} (hok : d.Accepts p G (d.physical addr) len)
    (hf : (grubReadTo p d addr len).2.faulted = false) :
    (readOutcome p m (m.physical addr) len = readOutcome p d (d.physical addr) len ↔ m.Serves G len) ∧
      (m.Serves G len → Twin p G (grubReadTo p m addr len).2 (grubReadTo p d addr len).2) := by
  obtain ⟨hstep, hnext⟩ := h.read hok hf
  rw [h.physical addr]
  refine ⟨hstep, fun hserves => ?_⟩
  have hbytes : (grubRead p m (d.physical addr) len).2.1 = (grubRead p d (d.physical addr) len).2.1 :=
    congrArg (fun r => r.2.1) (hstep.2 hserves)
  have hloaded := (hnext hserves).loaded addr (grubRead p d (d.physical addr) len).2.1
  have hm :
      (grubReadTo p m addr len).2 = (grubRead p m (d.physical addr) len).2.2.loaded addr (grubRead p d (d.physical addr) len).2.1 := by
    rw [← hbytes, ← h.physical addr]
    rfl
  rw [hm]
  exact hloaded

/-- **The run**: as long as every call has come to the same, the next one is compared
from matching states. -/
theorem Twin.outcomes (calls : List Call) : ∀ {m d : State σ ι}, Twin p G m d →
    CallsAccepted p G d calls → (runCalls p d calls).faulted = false →
    (outcomes p m calls = outcomes p d calls ↔ CallsMeet p (State.Serves G) m calls) := by
  induction calls with
  | nil => intro m d _ _ _; exact iff_of_true rfl trivial
  | cons call calls ih =>
    intro m d h ⟨hok, hrest⟩ hf
    have hfc : (call.run p d).faulted = false := runCalls_faulted calls hf
    unfold Disk.outcomes
    rw [List.cons.injEq]
    cases call with
    | seek offset =>
      obtain ⟨heq, hnext⟩ := h.seek offset
      rw [and_iff_right heq]
      exact ih hnext hrest hf
    | read buf len =>
      obtain ⟨hstep, hnext⟩ := h.read hok hfc
      exact (and_congr_left fun _ => hstep).trans (and_congr_right fun hserves => ih (hnext hserves) hrest hf)
    | load addr len =>
      obtain ⟨hstep, hnext⟩ := h.load hok hfc
      exact (and_congr_left fun _ => hstep).trans (and_congr_right fun hserves => ih (hnext hserves) hrest hf)

/-! ## The copy between the calls -/

/-- What is loaded beside the copy leaves it as it is. -/
theorem loaded_copyBytes {st : State σ ι} {addr n size : Nat} {bytes : Nat → Byte}
    (hbytes : ∀ i, n ≤ i → bytes i = st.mem ((addr + i) % 2 ^ 32))
    (hapart : ∀ i < n, ∀ j < size, (addr + i) % 2 ^ 32 ≠ (st.kernelRealAddr + j) % 2 ^ 32) :
    slice (st.loaded addr bytes).copyBytes 0 size = slice st.copyBytes 0 size := by
  refine Memory.slice_congr fun j _ hj => ?_
  -- the byte of the copy, as it is seen from the destination
  generalize hi : ((st.kernelRealAddr + j) % 2 ^ 32 + (2 ^ 32 - addr % 2 ^ 32)) % 2 ^ 32 = i
  have hback : (addr + i) % 2 ^ 32 = (st.kernelRealAddr + j) % 2 ^ 32 := by omega
  have hbeyond : n ≤ i := Nat.le_of_not_lt fun hlt => hapart i hlt j (by omega) hback
  calc (st.loaded addr bytes).copyBytes j = bytes i := congrArg bytes hi
    _ = st.mem ((addr + i) % 2 ^ 32) := hbytes i hbeyond
    _ = st.copyBytes j := congrArg st.mem hback

theorem memory_load {m : State σ ι} (hm : m.measureKernel = true) {addr size : Nat} {len : Int} (hnonneg : 0 ≤ len) (hlen : len < 2 ^ 32)
    (hapart : (Call.load addr len).Apart m.kernelRealAddr size) :
    slice (grubReadTo p m addr len).2.copyBytes 0 size = slice m.copyBytes 0 size := by
  have hkeep := grubRead_keeps (p := p) m (m.physical addr) len
  have hmem : (grubRead p m (m.physical addr) len).2.2.mem = m.mem := congrArg Settings.mem hkeep
  have hreal : (grubRead p m (m.physical addr) len).2.2.kernelRealAddr = m.kernelRealAddr := congrArg Settings.kernelRealAddr hkeep
  have hbeyond : ∀ i, len.toNat ≤ i → (grubRead p m (m.physical addr) len).2.1 i = m.mem ((addr + i) % 2 ^ 32) := by
    intro i hi
    rw [grubRead, memory_read m hm]
    simp only [copyRead]
    by_cases hclear : (if (m.physical addr).usable 0 (len % 2 ^ 32).toNat then m.aimed.errnum else .wontFit) = .none
    · rw [if_pos hclear]
      apply Memory.store_of_ge
      rw [Memory.slice_length]
      omega
    · rw [if_neg hclear]
      rfl
  unfold grubReadTo
  generalize grubRead p m (m.physical addr) len = r at hmem hreal hbeyond ⊢
  have hsame : r.2.2.copyBytes = m.copyBytes := by
    unfold State.copyBytes
    rw [hmem, hreal]
  rw [← hmem] at hbeyond
  rw [← hsame]
  refine loaded_copyBytes hbeyond ?_
  rw [hreal]
  exact hapart

/-- **Reads within the file** find their bytes in the copy, as long as nothing is loaded
over it. -/
theorem callsServed {calls : List Call} : ∀ {m : State σ ι}, m.measureKernel = true → slice m.copyBytes 0 G.length = G →
    G.length ≤ 0x7FFFFFFF → (∀ call ∈ calls, call.Apart m.kernelRealAddr G.length) → CallsMeet p (State.Inside G) m calls →
    CallsMeet p (State.Serves G) m calls := by
  induction calls with
  | nil => intro m _ _ _ _ _; trivial
  | cons call calls ih =>
    intro m hm hcopy hfits hapart hinside
    obtain ⟨hcall, hrest⟩ := List.forall_mem_cons.1 hapart
    have hserves : ∀ {len : Int}, m.Inside G len → m.Serves G len := by
      intro len hin
      have hslice := Memory.slice_segment hcopy (p := m.startOf) (n := len.toNat) (by have := hin.1; have := hin.2; omega)
      rw [Nat.zero_add] at hslice
      exact ⟨hin, hslice⟩
    cases call with
    | seek offset =>
      refine ih ?_ ?_ hfits ?_ hinside
      all_goals
        unfold grubSeek
        split <;> assumption
    | read buf len =>
      have hkeep := grubRead_keeps (p := p) m buf len
      have hreal : (grubRead p m buf len).2.2.kernelRealAddr = m.kernelRealAddr := congrArg Settings.kernelRealAddr hkeep
      have hmem : (grubRead p m buf len).2.2.mem = m.mem := congrArg Settings.mem hkeep
      refine ⟨hserves hinside.1, ih ((congrArg Settings.measureKernel hkeep).trans hm) ?_ hfits ?_ hinside.2⟩
      · unfold State.copyBytes at hcopy ⊢
        rwa [hreal, hmem]
      · rwa [hreal]
    | load addr len =>
      have hin := hinside.1
      have hkeep := grubRead_keeps (p := p) m (m.physical addr) len
      have hreal : (grubReadTo p m addr len).2.kernelRealAddr = m.kernelRealAddr := congrArg Settings.kernelRealAddr hkeep
      refine ⟨hserves hin, ih ((congrArg Settings.measureKernel hkeep).trans hm) ?_ hfits ?_ hinside.2⟩
      · rw [memory_load hm hin.1 (by have := hin.1; have := hin.2; omega) hcall]
        exact hcopy
      · rwa [hreal]

theorem callsInside {calls : List Call} :
    ∀ {m : State σ ι}, CallsMeet p (State.Serves G) m calls → CallsMeet p (State.Inside G) m calls := by
  induction calls with
  | nil => intro m _; trivial
  | cons call calls ih =>
    intro m h
    cases call with
    | seek offset => exact ih h
    | read buf len => exact ⟨h.1.1, ih h.2⟩
    | load addr len => exact ⟨h.1.1, ih h.2⟩

theorem runCalls_agree (calls : List Call) : ∀ {d : State σ ι}, (runCalls p d calls).faulted = false →
    runCalls p d calls = runCalls p.repaired d calls := by
  induction calls with
  | nil => intro d _; simp only [runCalls, List.foldl_nil]
  | cons call calls ih =>
    intro d hf
    have hrun : call.run p d = call.run p.repaired d := (call.run_agree (runCalls_faulted calls hf)).2
    have hrest := ih (d := call.run p d) hf
    rw [runCalls, List.foldl_cons, ← runCalls, hrest, hrun]
    rfl

theorem feedWindows_repaired {data : List Byte} {s : ι} (k : Nat) : feedWindows p.repaired data s k = feedWindows p data s k := by
  induction k with
  | zero => rfl
  | succ k ih =>
    unfold feedWindows
    rw [ih]
    rfl

theorem Decodes.repaired {data : List Byte} (h : Decodes p data G) : Decodes p.repaired data G where
  windows s k hk := by
    rw [feedWindows_repaired]
    exact h.windows s k hk
  bytes s := by
    have hbyte : unpackedByte p.repaired data (p.resetInflate s) = unpackedByte p data (p.resetInflate s) := by
      unfold unpackedByte
      funext i
      rw [feedWindows_repaired]
      rfl
    exact (congrArg (fun f => slice f 0 G.length) hbyte).trans (h.bytes s)

theorem State.Contains.repaired {st : State σ ι} {G : File} (h : st.Contains p G) : st.Contains p.repaired G := by
  unfold State.Contains at h ⊢
  split
  next hc =>
    rw [if_pos hc] at h
    obtain ⟨hmax, off, hoff, hle, hdecodes⟩ := h
    exact ⟨hmax, off, hoff, hle, hdecodes.repaired⟩
  next hc => rwa [if_neg hc] at h

/-- `grub_open` has opened a file that holds `G`, with `measure_kernel` set; no device
access of the direct run fails, and it stores into usable memory. The reads served from
memory come to what the direct ones do exactly when each of them keeps within the file
and finds its bytes where the copy is. If a copy has been made (which is not so of a block
list or with `perform_sha1` off) and nothing is loaded over it, that is: exactly when each
read keeps within the file. -/
theorem copy_serves_iff {G : File} {st st₁ : State σ ι} {filename : FileName} {calls : List Call}
    (hm : st.measureKernel = true) (hopen : grubOpen p st filename = (true, st₁)) (herr : st₁.errnum = .none)
    (hc : st₁.Contains p G) (haccepted : CallsAccepted p G.bytes st₁.direct calls)
    (hf : (runCalls p st₁.direct calls).faulted = false) :
    (outcomes p st₁ calls = outcomes p st₁.direct calls ↔ CallsMeet p (State.Serves G.bytes) st₁ calls) ∧
      (st.performSha1 = true ∧ st₁.blockFile = false →
        (∀ call ∈ calls, call.Apart st₁.kernelRealAddr G.bytes.length) →
        (CallsMeet p (State.Serves G.bytes) st₁ calls ↔ CallsMeet p (State.Inside G.bytes) st₁ calls)) := by
  have hfd : st₁.direct.faulted = false := runCalls_faulted calls hf
  have hf₁ : st₁.faulted = false := hfd
  have hopen' : grubOpen p.repaired st filename = (true, st₁) := by
    rw [← hopen]
    exact (grubOpen_agree st filename (by rw [hopen]; exact hf₁)).2.symm
  have hcopied := (grubOpen_opened hopen').copied p.repaired_healthy hm hf₁ herr hc.repaired
  refine ⟨(hcopied.twin herr).outcomes calls haccepted hf, fun hmade hapart => ⟨callsInside, fun hinside => ?_⟩⟩
  exact callsServed hcopied.measureKernel (hcopied.copy hmade) G.fits hapart hinside

/-- The state with measuring on, as the loaders set it. -/
def measuring : State Unit Unit := { State.atBoot () () 640 65536 with performSha1 := true, measureKernel := true }

/-- `/f` is open, and copied. -/
def copiedF : State Unit Unit := (grubOpen diskWithF measuring ⟨[0x2F, 0x66], slash_f_fits⟩).2

theorem copy_serves_f :
    outcomes diskWithF copiedF [.seek 1, .load 0x8000 2] = outcomes diskWithF copiedF.direct [.seek 1, .load 0x8000 2] := by
  have hcontains : copiedF.Contains diskWithF ⟨[0x61, 0x62, 0x63], by decide⟩ := by
    unfold State.Contains
    rw [if_neg (by decide +kernel)]
    decide +kernel
  have haccepted : CallsAccepted diskWithF [0x61, 0x62, 0x63] copiedF.direct [.seek 1, .load 0x8000 2] :=
    ⟨trivial, ⟨by decide +kernel, by decide +kernel⟩, trivial⟩
  have hinside : CallsMeet diskWithF (State.Inside [0x61, 0x62, 0x63]) copiedF [.seek 1, .load 0x8000 2] :=
    ⟨⟨by decide, by decide +kernel⟩, trivial⟩
  have hapart : ∀ call ∈ [Call.seek 1, .load 0x8000 2], call.Apart copiedF.kernelRealAddr 3 := by
    have hreal : copiedF.kernelRealAddr = 0x100006 := by decide +kernel
    rw [hreal, List.forall_mem_cons, List.forall_mem_singleton]
    exact ⟨trivial, by decide⟩
  have hopen : grubOpen diskWithF measuring ⟨[0x2F, 0x66], slash_f_fits⟩ = (true, copiedF) := Prod.ext (by decide +kernel) rfl
  have hiff := copy_serves_iff rfl hopen (by decide +kernel) hcontains haccepted (by decide +kernel)
  exact hiff.1.2 ((hiff.2 (by decide +kernel) hapart).2 hinside)

/-- The rest of the file is asked for: the copy counts -1 bytes, the disk 3. -/
theorem copy_reads_rest : grubOpen diskWithF measuring ⟨[0x2F, 0x66], by decide⟩ = (true, copiedF) ∧
    (outcomes diskWithF copiedF [.read (.local fun _ => 0) (-1)]).map Prod.fst = [-1] ∧
      (outcomes diskWithF copiedF.direct [.read (.local fun _ => 0) (-1)]).map Prod.fst = [3] :=
  ⟨Prod.ext (by decide +kernel) rfl, by decide +kernel, by decide +kernel⟩

end TrustedGrub.Disk
