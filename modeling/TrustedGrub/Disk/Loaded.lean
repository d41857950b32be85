import TrustedGrub.Boot.UpdatePcr
import TrustedGrub.Disk.Complete

/-!
# Files read one after the other

A file that is measured when it is read once from its beginning to its end is extended
with its own digest, because reads one after the other keep to the order in which the
file is hashed. A run over several files leaves the digests in the TPM one by one.
-/

namespace TrustedGrub.Disk
open Fips180 (Byte Word Words)
open Boot (extendPcr hashBytes pcrsAfter)

variable {σ ι : Type} {p : Platform σ ι} {F : List Byte}

/-! ## The order of the reads -/

theorem PlainRead.inOrder (hp : p.Healthy) {has : Word} (hfits : F.length < 2 ^ 32) (reads : List (Dest × Int)) :
    ∀ {pos : Nat} {st : State σ ι}, PlainRead F 0 has pos st → (readAll p st reads).faulted = false →
      CallsInOrder p st (readCalls reads) := by
  induction reads with
  | nil => intro pos st _ _; trivial
  | cons r reads ih =>
    intro pos st h hf
    rw [readAll_cons] at hf
    have haligned : st.startOf = st.sha1ByteCount.toNat := by rw [h.startOf h.within, h.count, Nat.zero_add]
    obtain ⟨hplain, hhas⟩ := h.toPlain.read hp h.within (by omega) r.1 r.2 (readAll_faulted hf)
    constructor
    · apply Or.inr
      rw [if_neg (by rw [h.opened.compressedFile]; decide)]
      exact .inl (.inr (.inr haligned))
    · exact ih ⟨hplain, countAt_le h.within r.2, .inl hhas⟩ hf

theorem Packed.inOrder (hp : p.Healthy) {off base : Nat} {has : Word} {s : ι} {size : Nat} {taken : Nat → Nat}
    (hpack : Packs p (F.drop off) size taken) (hhas : has ≠ 0) (hfits : base + F.length < 2 ^ 32) (reads : List (Dest × Int)) :
    ∀ {pos : Nat} {st : State σ ι}, Packed p F off base has s size pos st → pos ≤ size → ReadsWell p st reads →
      (readAll p st reads).faulted = false → CallsInOrder p st (readCalls reads) := by
  induction reads with
  | nil => intro pos st _ _ _ _; trivial
  | cons r reads ih =>
    intro pos st h hle hwell hf
    rw [readAll_cons] at hf
    have hmax := h.filemax
    have hpos := h.filepos
    have hsane : saneFilepos st.filepos st.filemax = pos := by
      rw [saneFilepos_of_le (by omega) (by omega), hpos]
    have hsaved : st.gzip.savedFilepos = ((pos + wsize - 1) / wsize * wsize : Nat) := h.unpacking.window.savedFilepos
    constructor
    · apply Or.inr
      rw [if_pos h.unpacking.compressedFile]
      constructor
      · intro hzero
        by_contra hne
        rw [State.startOf, hsane, Int.toNat_natCast] at hne
        exact h.counted hpack (Nat.pos_of_ne_zero hne) hle hzero
      · apply Or.inr
        apply Or.inr
        rw [hsaved, hsane]
        simp only [wsize]
        omega
    · exact ih (h.read hp hpack hle hhas hfits r.1 r.2 (readAll_faulted hf) hwell.1) (countAt_le hle r.2) hwell.2 hf

theorem Listed.inOrder (hp : p.Healthy) (hfits : F.length ≤ 0x7FFFFFFF) (reads : List (Dest × Int)) : ∀ {count pos : Nat} {st : State σ ι},
    Listed F count pos st → (readAll p st reads).faulted = false → CallsInOrder p st (readCalls reads) := by
  induction reads with
  | nil => intro count pos st _ _; trivial
  | cons r reads ih =>
    intro count pos st h hf
    rw [readAll_cons] at hf
    constructor
    · apply Or.inr
      rw [if_neg (by rw [h.opened.compressedFile]; decide)]
      exact .inl (.inl h.list)
    · exact ih (h.read hp hfits r.1 r.2 (readAll_faulted hf)).1 hf

theorem memory_inOrder (reads : List (Dest × Int)) : ∀ {st : State σ ι}, st.measureKernel = true → CallsInOrder p st (readCalls reads) := by
  induction reads with
  | nil => intro st _; trivial
  | cons r reads ih =>
    intro st hm
    constructor
    · exact .inl hm
    · exact ih ((congrArg Settings.measureKernel (grubRead_keeps (p := p) st r.1 r.2)).trans hm)

/-! ## What has been published -/

theorem testHeader_filepos {st st' : State σ ι} (h : gunzipTestHeader p st = (true, st')) : st'.filepos = 0 := by
  rcases testHeader_cases h with ⟨t, -, rfl⟩ | ⟨hd, size, -, -, rfl⟩
  · rfl
  · rfl

/-- A file has been opened at its beginning. -/
theorem OpenedFrom.filepos {st st' : State σ ι} (h : OpenedFrom p st st') : st'.filepos = 0 := by
  cases h with
  | path w s walk ready unmeasured filepos flags walked opened =>
    unfold openMeasured at opened
    by_cases hon : s.performSha1 = true
    · simp only [if_pos hon] at opened
      generalize hr : gunzipTestHeader p s.probing = r at opened
      obtain ⟨temp, t⟩ := r
      obtain ⟨rfl, hs⟩ := Prod.mk.inj opened
      have hzero : t.filepos = 0 := testHeader_filepos hr
      rw [← hs]
      split
      · rfl
      · exact hzero
    · rw [if_neg hon] at opened
      exact testHeader_filepos opened
  | blocks s on unmeasured flags opened => exact testHeader_filepos opened

/-- A read of a measured file that is not empty publishes its size. -/
theorem Measured.read_published (hp : p.Healthy) {st : State σ ι} (h : Measured F st) {buf : Dest} {len : Int} (horder : st.InOrder len)
    (hf : (grubRead p st buf len).2.2.faulted = false) (hne : F ≠ []) : (grubRead p st buf len).2.2.sha1HasToMeasure ≠ 0 := by
  have hlen : 0 < F.length := List.length_pos_of_ne_nil hne
  have hfits := h.measures.fits
  cases h.reading with
  | stored hopen =>
    have hstep := raw_step hp (grubReadWith p noRead) hopen buf (hopen.reaches hf)
    have hhas : (grubRead p st buf len).2.2.sha1HasToMeasure = publish st.sha1HasToMeasure F.length := hstep.expected
    rw [hhas]
    exact publish_pos hlen hfits
  | packed hopen haligned => exact (packed_step hp hopen h.on h.measures haligned horder hf).1.published
  | memory hm hpub _ =>
    have hread : grubRead p st buf len = copyRead st.aimed buf len := memory_read st hm buf len
    have hhas : (grubRead p st buf len).2.2.sha1HasToMeasure = publish st.sha1HasToMeasure st.filemax := by
      rw [hread]
      rfl
    rw [hhas]
    rcases hpub with hpub | hmax
    · exact publish_ne_zero hpub
    · rw [hmax]
      exact publish_pos hlen hfits

theorem Measured.run_published (hp : p.Healthy) (reads : List (Dest × Int)) : ∀ {st : State σ ι}, Measured F st →
    CallsInOrder p st (readCalls reads) → (readAll p st reads).faulted = false → F ≠ [] → reads ≠ [] →
    (readAll p st reads).sha1HasToMeasure ≠ 0 := by
  induction reads with
  | nil => intro st _ _ _ _ hsome; exact absurd rfl hsome
  | cons r reads ih =>
    intro st h ⟨horder, hrest⟩ hf hne _
    rw [readAll_cons] at hf ⊢
    have hfr := readAll_faulted hf
    by_cases hlast : reads = []
    · rw [hlast, readAll_nil]
      exact h.read_published hp horder hfr hne
    · exact ih (h.read hp horder hfr) hrest hf hne hlast

/-! ## One file -/

/-- The file is one that `grub_close` extends, with nothing but its own bytes hashed. -/
structure Measurable (p : Platform σ ι) (measureKernel : Bool) (st : State σ ι) (lens : List Int) : Prop where
  links : measureKernel = true ∨ st.links = []
  fits : st.links.sum + st.rawFile.length < 2 ^ 32
  adds : ∃ off size taken, (st.compressedFile = true → Unzips p st.rawFile off size taken st) ∧
    AddsUp measureKernel st lens off size taken

/-- Reads one after the other keep to the order in which the file is hashed. -/
theorem ReadThrough.inOrder (hp : p.Healthy) {off size : Nat} {taken : Nat → Nat} {st st₁ : State σ ι} (h : OpenedFrom p st st₁)
    (hon : st.performSha1 = true) {reads : List (Dest × Int)} (hread : ReadThrough p st₁ reads)
    (hlinks : st.measureKernel = true ∨ st₁.links = []) (hfits : st₁.rawFile.length < 2 ^ 32)
    (hunzips : st₁.compressedFile = true → Unzips p st₁.rawFile off size taken st₁)
    (hadds : AddsUp st.measureKernel st₁ (reads.map Prod.snd) off size taken) : CallsInOrder p st₁ (readCalls reads) := by
  have hf₁ : st₁.faulted = false := readAll_faulted hread.faulted
  cases h with
  | path w s walk ready unmeasured filepos flags walked opened =>
    have hreached := runWalk_reached hp walk ready walked
    have hwalk := (walked_flags walked).trans flags
    have hons : s.performSha1 = true := hwalk.performSha1.trans hon
    by_cases hm : st.measureKernel = true
    · have hms : s.measureKernel = true := hwalk.measureKernel.trans hm
      have hkept := (openMeasured_flags (p := p) s).measureKernel
      rw [opened] at hkept
      exact memory_inOrder reads (hkept.trans hms)
    · have hm' := Bool.eq_false_iff.2 hm
      have hnone : s.links = [] := (openMeasured_links hons opened).symm.trans (hlinks.resolve_left hm)
      obtain ⟨hb, hsame⟩ := openMeasured_kept hreached hons opened
      have hraw : st₁.rawFile = s.file.bytes := by rw [State.rawFile, if_neg (by rw [hb]; decide), hsame]
      have hfresh := path_fresh hp ready unmeasured filepos (flags.performSha1.trans hon) (flags.measureKernel.trans hm') walked opened hf₁
        (by rw [hnone]; decide)
      rw [hnone] at hfresh
      rw [hraw] at hfits hunzips
      cases hfresh with
      | plain plain => exact PlainRead.inOrder hp hfits reads ⟨plain, Nat.zero_le _, .inr rfl⟩ hread.faulted
      | packed compressedFile published positive start =>
        have hz := hunzips compressedFile
        obtain ⟨s₀, hpacked⟩ := start off size hz.dataOffset hz.inside hz.filemax
        exact hpacked.inOrder hp hz.packs published (by rw [List.sum_nil]; omega) reads (Nat.zero_le _) hread.well hread.faulted
  | blocks s on unmeasured flags opened =>
    rw [AddsUp.of_blocks ((testHeader_blockFile opened).trans on.blockFile)] at hadds
    have hfits' := on.fits
    simp only [maxint] at hfits'
    have hlen := on.size
    have hpositive := on.positive
    rcases testHeader_listed hp on unmeasured (flags.performSha1.trans hon) (flags.measureKernel.trans hadds.1) opened hf₁ with
      hlisted | hshort
    · exact hlisted.inOrder hp (by omega) reads hread.faulted
    · exact absurd (hshort.compressedFile.symm.trans hadds.2.1) (by decide)

/-- **One file**: what `grub_close` extends is the digest of the file. -/
theorem Measurable.digest {st st₁ : State σ ι} {filename : FileName} {reads : List (Dest × Int)}
    (h : Measurable p st.measureKernel st₁ (reads.map Prod.snd)) (hon : st.performSha1 = true)
    (hopen : grubOpen p st filename = (true, st₁)) (hread : ReadThrough p st₁ reads) :
    (readAll p st₁ reads).sha1ByteCount = (readAll p st₁ reads).sha1HasToMeasure ∧
      (Sha1.sha1Finish (readAll p st₁ reads).mySha1).1 = Fips180.sha1 st₁.rawFile := by
  have hf₁ : st₁.faulted = false := readAll_faulted hread.faulted
  obtain ⟨off, size, taken, hunzips, hadds⟩ := h.adds
  have hall := (hread.adds_iff hon hopen h.fits hunzips).2 hadds
  refine ⟨hall, ?_⟩
  have hopened := grubOpen_opened (grubOpen_repaired hopen hf₁)
  have hfits := h.fits
  obtain ⟨hsame, hread'⟩ := hread.agree
  rw [hsame] at hall ⊢
  have horder := ReadThrough.inOrder p.repaired_healthy hopened hon hread' h.links (by omega) (fun hc => (hunzips hc).repaired) hadds
  have hmeasured := hopened.measured p.repaired_healthy hon hf₁ h.links
  refine (hmeasured.runCalls (readCalls reads) horder hread'.faulted).measures.complete hall ?_
  by_cases hempty : st₁.rawFile = []
  · exact .inr hempty
  apply Or.inl
  by_cases hnone : reads = []
  · -- the file is not empty, so a header has been read
    have hstart := hread'.all
    have hzero := hopened.filepos
    have hlen := List.length_pos_of_ne_nil hempty
    rw [hnone, readAll_nil] at hstart
    rw [hnone]
    change st₁.sha1HasToMeasure ≠ 0
    cases hmeasured.reading with
    | stored hopen' =>
      have hmax := hopen'.filemax
      omega
    | packed hopen' _ => exact hopen'.published
    | memory _ hpub _ =>
      rcases hpub with hpub | hmax
      · exact hpub
      · omega
  · exact hmeasured.run_published p.repaired_healthy reads horder hread'.faulted hempty hnone

/-! ## Several files -/

/-- A file to be loaded: its name, whether the loader copies it first, and the reads. -/
structure Load where
  filename : FileName
  measureKernel : Bool
  reads : List (Dest × Int)

/-- The loader sets `measure_kernel`, or leaves it. -/
def State.loading (st : State σ ι) (load : Load) : State σ ι := { st with measureKernel := load.measureKernel }

/-- The files are opened, read from their beginnings to their ends and closed, one after
the other; with them stand their stored bytes. -/
inductive Loaded (p : Platform σ ι) : State σ ι → List (Load × List Byte) → State σ ι → Prop where
  | nil (st : State σ ι) : Loaded p st [] st
  | cons {st st₁ st₂ st' : State σ ι} {load : Load} {loads : List (Load × List Byte)}
      (opened : grubOpen p (st.loading load) load.filename = (true, st₁)) (read : ReadThrough p st₁ load.reads)
      (measurable : Measurable p load.measureKernel st₁ (load.reads.map Prod.snd))
      (closed : grubClose p (readAll p st₁ load.reads) = some st₂) (rest : Loaded p st₂ loads st') :
      Loaded p st ((load, st₁.rawFile) :: loads) st'

theorem grubClose_performSha1 {st st' : State σ ι} (h : grubClose p st = some st') : st'.performSha1 = st.performSha1 := by
  simp only [grubClose] at h
  split at h
  · split at h
    · split at h
      · cases h
      · cases h
        rfl
    · split at h
      · cases h
        rfl
      · cases h
        rfl
  · cases h
    rfl

/-- **The step**: one more file is in the TPM. -/
theorem close_measurable (htpm : p.tpm = true) {st st₁ st₂ : State σ ι} {load : Load} (hon : st.performSha1 = true)
    (hopen : grubOpen p (st.loading load) load.filename = (true, st₁)) (hread : ReadThrough p st₁ load.reads)
    (h : Measurable p load.measureKernel st₁ (load.reads.map Prod.snd)) (hclose : grubClose p (readAll p st₁ load.reads) = some st₂) :
    st₂.performSha1 = true ∧ st₂.events = st.events ++ [.updatePcr pcrKernel (Fips180.sha1 st₁.rawFile)] := by
  have hon' : (st.loading load).performSha1 = true := hon
  have hon₂ : (readAll p st₁ load.reads).performSha1 = true := readAll_on hon' hopen
  have hload : Measurable p (st.loading load).measureKernel st₁ (load.reads.map Prod.snd) := h
  obtain ⟨hall, hdigest⟩ := hload.digest hon' hopen hread
  have hevents : (readAll p st₁ load.reads).events = st.events := by
    have hflags := (grubOpen_flags (p := p) (st.loading load) load.filename).events
    rw [hopen] at hflags
    exact (congrArg Settings.events (readAll_settings load.reads st₁)).trans hflags
  refine ⟨(grubClose_performSha1 hclose).trans hon₂, ?_⟩
  rw [grubClose_events hclose, hevents, State.closeEvents, if_neg (by rw [hon₂]; decide), if_neg (not_not.2 hall), if_pos htpm, hdigest]

/-- A register is extended with the digests of the files. -/
def extendFiles (value : List Byte) (files : List (List Byte)) : List Byte :=
  files.foldl (fun value F => extendPcr value (hashBytes (Fips180.sha1 F))) value

/-- **The run**: the register holds the files in their order. -/
theorem Loaded.pcr (htpm : p.tpm = true) {st st' : State σ ι} {loads : List (Load × List Byte)} (h : Loaded p st loads st')
    (hon : st.performSha1 = true) : ∃ events, st'.events = st.events ++ events ∧
      ∀ pcrs, pcrsAfter pcrs events pcrKernel = extendFiles (pcrs pcrKernel) (loads.map Prod.snd) := by
  induction h with
  | nil st => exact ⟨[], (List.append_nil _).symm, fun pcrs => rfl⟩
  | @cons st st₁ st₂ st' load loads opened read measurable closed _ ih =>
    obtain ⟨hon₂, hevents⟩ := close_measurable htpm hon opened read measurable closed
    obtain ⟨events, hrest, hpcrs⟩ := ih hon₂
    refine ⟨.updatePcr pcrKernel (Fips180.sha1 st₁.rawFile) :: events, ?_, fun pcrs => ?_⟩
    · rw [hrest, hevents, List.append_assoc]
      rfl
    · have hfirst := Boot.updatePcr_extends pcrs (by decide : 8 ≤ pcrKernel) (by decide) (Fips180.sha1 st₁.rawFile) pcrKernel
      rw [if_pos rfl] at hfirst
      have hafter := hpcrs (Boot.updatePcr pcrs pcrKernel (Fips180.sha1 st₁.rawFile)).2
      rw [hfirst] at hafter
      exact hafter

end TrustedGrub.Disk
