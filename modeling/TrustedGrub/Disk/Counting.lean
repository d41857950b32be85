import TrustedGrub.Disk.MemoryCopy

/-!
# Counting what is hashed

`grub_close` extends the digest when as many bytes have been hashed as the first read
has published. Here both numbers are followed through a read of every kind of file, and
through the ways of opening one.
-/

namespace TrustedGrub.Disk
open Fips180 (Byte Word Words)

variable {σ ι : Type} {p : Platform σ ι} {F : List Byte}

/-! ## Counting -/

/-- Where the count stands once the part before `start` is in. -/
def countedTo (count : Word) (start : Nat) : Word := if count = 0 then BitVec.ofNat 32 start else count

/-- What one read of a stored file adds to the count, with measuring on. -/
theorem raw_count (hp : p.Healthy) (read : Reader σ ι) {st : State σ ι} (h : RawOpen st F) (hon : st.performSha1 = true) (buf : Dest)
    {len : Int} (hreach : st.Reaches F len) :
    (grubReadWith p (grubReadWith p read) st buf len).2.2.sha1ByteCount =
      if st.blockFile then countedTo st.sha1ByteCount st.startOf
      else countedTo st.sha1ByteCount st.startOf + BitVec.ofNat 32 (countAt F.length st.startOf len) := by
  obtain ⟨driver, blocks, heq, -⟩ := raw_read hp read h buf hreach
  rw [heq]
  generalize hs : st.aimed.served driver blocks (st.startOf + countAt F.length st.startOf len) = s
  have hperf : s.performSha1 = true := by rw [← hs]; exact hon
  have hblock : s.blockFile = st.blockFile := by rw [← hs]; rfl
  have hcount : s.sha1ByteCount = st.sha1ByteCount := by rw [← hs]; rfl
  have hskip : (s.skipped F st.startOf).sha1ByteCount = countedTo st.sha1ByteCount st.startOf := by
    by_cases hc : s.performSha1 = true ∧ s.sha1ByteCount = 0 ∧ 0 < st.startOf
    · rw [State.skipped_of _ hc, countedTo, if_pos (hcount.symm.trans hc.2.1), State.hashed]
      simp only [hc.2.1, BitVec.ofInt_natCast]
      exact BitVec.zero_add _
    · rw [State.skipped_not _ hc, hcount, countedTo]
      split
      next hzero =>
        have hstart : st.startOf = 0 := by
          by_contra hne
          exact hc ⟨hperf, hcount.trans hzero, by omega⟩
        rw [hzero, hstart]
        rfl
      next => rfl
  obtain ⟨-, -, -, hk₃, hk₄⟩ := skipped_fields s F st.startOf
  by_cases hb : st.blockFile = true
  · rw [if_pos hb, State.measured, if_neg (by rw [hk₃, hblock, hb]; simp), hskip]
  · rw [if_neg hb, State.measured, if_pos ⟨hk₄.trans hperf, hk₃.trans (hblock.trans (Bool.eq_false_iff.2 hb))⟩, State.hashed]
    simp only [hskip, BitVec.ofInt_natCast]

theorem ofNat_toNat {n : Nat} (h : n < 2 ^ 32) : (BitVec.ofNat 32 n : Word).toNat = n := by
  rw [BitVec.toNat_ofNat, Nat.mod_eq_of_lt h]

theorem countedTo_toNat {count : Word} {start : Nat} (h : start < 2 ^ 32) :
    (countedTo count start).toNat = if count.toNat = 0 then start else count.toNat := by
  have hzero : count = 0 ↔ count.toNat = 0 := by
    rw [← BitVec.toNat_inj]
    rfl
  simp only [countedTo, hzero]
  split
  · exact ofNat_toNat h
  · rfl

/-- The count for a file behind a driver, in numbers. -/
theorem raw_count_driver (hp : p.Healthy) (read : Reader σ ι) {st : State σ ι} (h : RawOpen st F) (hon : st.performSha1 = true)
    (hb : st.blockFile = false) (buf : Dest) {len : Int} (hreach : st.Reaches F len) (hfits : F.length < 2 ^ 32)
    (hroom : (if st.sha1ByteCount.toNat = 0 then st.startOf else st.sha1ByteCount.toNat) + countAt F.length st.startOf len < 2 ^ 32) :
    (grubReadWith p (grubReadWith p read) st buf len).2.2.sha1ByteCount.toNat =
      (if st.sha1ByteCount.toNat = 0 then st.startOf else st.sha1ByteCount.toNat) + countAt F.length st.startOf len := by
  have hstart := h.start.2
  rw [raw_count hp read h hon buf hreach, if_neg (by rw [hb]; decide), BitVec.toNat_add, countedTo_toNat (by omega),
    ofNat_toNat (by omega), Nat.mod_eq_of_lt hroom]

/-! ## Sizes published -/

/-- The first size that is not zero. -/
def firstSize : List Nat → Nat
  | [] => 0
  | n :: sizes => if n = 0 then firstSize sizes else n

/-- No more than one of the sizes is not zero. -/
def Single (sizes : List Nat) : Prop := (sizes.filter fun n => n ≠ 0).length ≤ 1

instance (sizes : List Nat) : Decidable (Single sizes) := inferInstanceAs (Decidable (_ ≤ _))

theorem firstSize_le_sum (sizes : List Nat) : firstSize sizes ≤ sizes.sum := by
  induction sizes with
  | nil => exact Nat.le_refl 0
  | cons n sizes ih =>
    rw [firstSize, List.sum_cons]
    split <;> omega

theorem sum_eq_zero_iff_filter (sizes : List Nat) : sizes.sum = 0 ↔ (sizes.filter fun n => n ≠ 0).length = 0 := by
  induction sizes with
  | nil => exact ⟨fun _ => rfl, fun _ => rfl⟩
  | cons n sizes ih =>
    rw [List.sum_cons]
    by_cases hn : n = 0
    · rw [hn, Nat.zero_add, ih, List.filter_cons_of_neg (by simp)]
    · rw [List.filter_cons_of_pos (by simpa using hn), List.length_cons]
      omega

/-- The sizes add up to the first one exactly when it is the only one. -/
theorem sum_eq_firstSize_iff (sizes : List Nat) : sizes.sum = firstSize sizes ↔ Single sizes := by
  induction sizes with
  | nil => exact ⟨fun _ => Nat.zero_le 1, fun _ => rfl⟩
  | cons n sizes ih =>
    rw [Single, firstSize, List.sum_cons]
    by_cases hn : n = 0
    · rw [if_pos hn, hn, Nat.zero_add, ih, Single, List.filter_cons_of_neg (by simp)]
    · rw [if_neg hn, List.filter_cons_of_pos (by simpa using hn), List.length_cons]
      have hzero := sum_eq_zero_iff_filter sizes
      omega

theorem firstSize_append (sizes : List Nat) (n : Nat) :
    firstSize (sizes ++ [n]) = if firstSize sizes = 0 then n else firstSize sizes := by
  induction sizes with
  | nil =>
    simp only [List.nil_append, firstSize, if_true]
    split <;> omega
  | cons m sizes ih =>
    simp only [List.cons_append, firstSize, ih]
    by_cases hm : m = 0
    · simp only [if_pos hm]
    · simp only [if_neg hm]

/-- A size is published behind others. -/
theorem publish_firstSize {sizes : List Nat} {n : Nat} (hfits : firstSize sizes < 2 ^ 32) :
    publish (BitVec.ofNat 32 (firstSize sizes)) n = BitVec.ofNat 32 (firstSize (sizes ++ [n])) := by
  have hzero : BitVec.ofNat 32 (firstSize sizes) = 0 ↔ firstSize sizes = 0 := by
    rw [← BitVec.toNat_inj, ofNat_toNat hfits]
    rfl
  rw [publish, firstSize_append, BitVec.ofInt_natCast]
  simp only [hzero]
  split <;> rfl

/-! ## Inside the decompressor -/

/-- A file behind a driver is unpacked, the data of which begin at `off`. What has been
hashed are `base` bytes of links and the stored file up to its position: all of it, if
there are no links, and else the data. -/
structure Tallied (F : List Byte) (off base : Nat) (has : Word) (st : State σ ι) : Prop where
  raw : RawFile st F
  on : st.performSha1 = true
  driver : st.blockFile = false
  published : st.sha1HasToMeasure = has
  count : ∃ pos : Nat, st.filepos = pos ∧ off ≤ pos ∧ pos ≤ F.length ∧
    (pos = off ∧ st.sha1ByteCount.toNat = base ∨ st.sha1ByteCount.toNat = if base = 0 then pos else base + pos - off)

theorem tallied_lasting (hp : p.Healthy) {off base : Nat} {has : Word} (hhas : has ≠ 0) (hfits : base + F.length < 2 ^ 32) :
    Lasting (grubReadWith p (grubReadWith p noRead)) (fun st : State σ ι => Tallied F off base has st) where
  mono st buf len hf := (grubReadWith_agree (grubReadWith_agree noRead_agree) st buf len hf).1
  read st buf len he h hf := by
    obtain ⟨pos, hpos, hlow, hhigh, hcount⟩ := h.count
    have hraw : RawOpen st F := ⟨h.raw, he⟩
    have hreach := hraw.reaches hf
    have hraw' := hraw.read hp noRead buf hreach
    have hstep := raw_step hp noRead hraw buf hreach
    have hkeep := grubReadWith_keeps (p := p) (grubReadWith_keeps (p := p) noRead_keeps) st buf len
    have hmax := hraw.filemax
    have hstart : st.startOf = pos := by
      rw [State.startOf, saneFilepos_of_le (by omega) (by omega), hpos, Int.toNat_natCast]
    have hend := countAt_le hhigh len
    have hadd := raw_count_driver hp noRead hraw h.on h.driver buf hreach (by omega)
      (by rw [hstart]; split at hcount <;> split <;> omega)
    rw [hstart] at hadd
    refine ⟨⟨hraw'.toRawFile, (congrArg Settings.performSha1 hkeep).trans h.on,
      (congrArg Settings.blockFile hkeep).trans h.driver, ?_, pos + countAt F.length pos len, ?_, by omega, hend, .inr ?_⟩,
      hraw'.errnum⟩
    · rw [hstep.expected, publish, h.published, if_neg hhas]
    · rw [hstep.filepos, hstart]
      rfl
    · rw [hadd]
      by_cases hbase : base = 0
      · rw [if_pos hbase] at hcount ⊢
        split <;> omega
      · rw [if_neg hbase] at hcount ⊢
        split <;> omega
  unpack st gzip errnum _ h :=
    ⟨⟨h.raw.measureKernel, h.raw.compressedFile, h.raw.filemax, h.raw.stored.blocks, h.raw.stored.driver⟩, h.on, h.driver,
      h.published, h.count⟩

/-- A block list is unpacked: nothing more is hashed. -/
structure Settled (F : List Byte) (count has : Word) (st : State σ ι) : Prop where
  raw : RawFile st F
  on : st.performSha1 = true
  list : st.blockFile = true
  published : st.sha1HasToMeasure = has
  count : st.sha1ByteCount = count

theorem settled_lasting (hp : p.Healthy) {count has : Word} (hcount : count ≠ 0) (hhas : has ≠ 0) :
    Lasting (grubReadWith p (grubReadWith p noRead)) (fun st : State σ ι => Settled F count has st) where
  mono st buf len hf := (grubReadWith_agree (grubReadWith_agree noRead_agree) st buf len hf).1
  read st buf len he h hf := by
    have hraw : RawOpen st F := ⟨h.raw, he⟩
    have hreach := hraw.reaches hf
    have hraw' := hraw.read hp noRead buf hreach
    have hstep := raw_step hp noRead hraw buf hreach
    have hkeep := grubReadWith_keeps (p := p) (grubReadWith_keeps (p := p) noRead_keeps) st buf len
    refine ⟨⟨hraw'.toRawFile, (congrArg Settings.performSha1 hkeep).trans h.on,
      (congrArg Settings.blockFile hkeep).trans h.list, ?_, ?_⟩, hraw'.errnum⟩
    · rw [hstep.expected, publish, h.published, if_neg hhas]
    · rw [raw_count hp noRead hraw h.on buf hreach, if_pos h.list, countedTo, h.count, if_neg hcount]
  unpack st gzip errnum _ h :=
    ⟨⟨h.raw.measureKernel, h.raw.compressedFile, h.raw.filemax, h.raw.stored.blocks, h.raw.stored.driver⟩, h.on, h.list,
      h.published, h.count⟩

theorem left_inside {st : State σ ι} (h : st.compressedFile = false) : st.gunzipLeft.inside = st := by
  cases st
  cases h
  rfl

/-- A read of a compressed file that does not hash a skipped part. -/
theorem inside_lasting {I : State σ ι → Prop} (hI : Lasting (grubReadWith p (grubReadWith p noRead)) I)
    (hplain : ∀ s, I s → s.compressedFile = false) {st : State σ ι} (hm : st.measureKernel = false) (hc : st.compressedFile = true)
    (hskip : measureSkipped (grubReadWith p (grubReadWith p noRead)) st.aimed = st.aimed)
    (h : I (st.aimed.gunzipEntered p)) {buf : Dest} {len : Int}
    (hf : (grubRead p st buf len).2.2.faulted = false) (herr : (grubRead p st buf len).2.2.errnum = .none) :
    I (grubRead p st buf len).2.2.inside := by
  simp only [grubRead, grubReadWith] at hf herr hskip ⊢
  rw [if_neg (by simp [State.aimed, hm])] at hf herr ⊢
  split
  next hover =>
    rw [if_pos hover] at herr
    cases herr
  next hover =>
    have hpacked : st.aimed.compressedFile = true := hc
    rw [if_neg hover, hskip] at hf
    rw [hskip]
    simp only [fileRead, hpacked, if_true, gunzipRead] at hf ⊢
    have hrun := (hI.gunzipLoop _ hf).2 h
    rw [left_inside (hplain _ hrun)]
    exact hrun

/-! ## Compressed files -/

/-- Compressed data: the first `k` windows of the `size` bytes they unpack to take
`taken k` bytes of them, whenever unpacking starts afresh, and every window takes some. -/
structure Packs (p : Platform σ ι) (data : List Byte) (size : Nat) (taken : Nat → Nat) : Prop where
  windows : ∀ s k, k * wsize < size + wsize → ∃ state, feedWindows p data (p.resetInflate s) k = .window state (taken k)
  takes : ∀ k, 0 < k → k * wsize < size + wsize → 0 < taken k

/-- A compressed file behind a driver, read up to `pos`. -/
structure Packed (p : Platform σ ι) (F : List Byte) (off base : Nat) (has : Word) (s : ι) (size pos : Nat) (st : State σ ι) : Prop where
  unpacking : Unpacking p F off true (p.resetInflate s) ((pos + wsize - 1) / wsize) st
  tallied : Tallied F off base has st.inside
  filemax : st.filemax = size
  filepos : st.filepos = pos
  untouched : pos = 0 → st.sha1ByteCount.toNat = base

/-- The stored file stands behind the beginning of its data. -/
theorem Packed.behind {off base : Nat} {has : Word} {s : ι} {size pos : Nat} {taken : Nat → Nat} {st : State σ ι}
    (h : Packed p F off base has s size pos st) (hp : Packs p (F.drop off) size taken) (hpos : 0 < pos) (hle : pos ≤ size) :
    off < rawPosition F.length off (taken ((pos + wsize - 1) / wsize)) ∧
      st.inside.filepos = (rawPosition F.length off (taken ((pos + wsize - 1) / wsize)) : Nat) := by
  obtain ⟨n, hstreams, hfed⟩ := h.unpacking.window.streams
  have hk : (pos + wsize - 1) / wsize * wsize < size + wsize := by simp only [wsize]; omega
  have hk' : 0 < (pos + wsize - 1) / wsize := by simp only [wsize]; omega
  obtain ⟨state, hwindow⟩ := hp.windows s _ hk
  obtain ⟨-, rfl⟩ := Fed.window.inj (hfed.symm.trans hwindow)
  have htaken := hp.takes _ hk' hk
  have hroom := hstreams.taken
  refine ⟨?_, hstreams.filepos⟩
  rw [rawPosition, if_neg (by omega)]
  simp only [inbufsiz]
  omega

/-- How much of the stored file has been hashed. -/
theorem Packed.count {off base : Nat} {has : Word} {s : ι} {size pos : Nat} {taken : Nat → Nat} {st : State σ ι}
    (h : Packed p F off base has s size pos st) (hp : Packs p (F.drop off) size taken) (hpos : 0 < pos) (hle : pos ≤ size) :
    st.sha1ByteCount.toNat =
      if base = 0 then rawPosition F.length off (taken ((pos + wsize - 1) / wsize))
      else base + rawPosition F.length off (taken ((pos + wsize - 1) / wsize)) - off := by
  obtain ⟨hbehind, hraw⟩ := h.behind hp hpos hle
  obtain ⟨at', hat, -, -, hcount⟩ := h.tallied.count
  rw [hat] at hraw
  have hat' : at' = rawPosition F.length off (taken ((pos + wsize - 1) / wsize)) := Int.ofNat.inj hraw
  have hcount' : st.sha1ByteCount.toNat = if base = 0 then at' else base + at' - off :=
    hcount.resolve_left fun hstart => absurd hstart.1 (by omega)
  rw [hcount', hat']

theorem Packed.counted {off base : Nat} {has : Word} {s : ι} {size pos : Nat} {taken : Nat → Nat} {st : State σ ι}
    (h : Packed p F off base has s size pos st) (hp : Packs p (F.drop off) size taken) (hpos : 0 < pos) (hle : pos ≤ size) :
    st.sha1ByteCount ≠ 0 := by
  intro hzero
  have hcount := h.count hp hpos hle
  obtain ⟨hbehind, -⟩ := h.behind hp hpos hle
  have hnone : (0 : Word).toNat = 0 := rfl
  rw [hzero, hnone] at hcount
  split at hcount <;> omega

/-- A read of nothing does not count. -/
theorem packed_nothing {st : State σ ι} (hm : st.measureKernel = false) (hc : st.compressedFile = true)
    (hskip : measureSkipped (grubReadWith p (grubReadWith p noRead)) st.aimed = st.aimed)
    (hgoes : ¬ st.aimed.inside.gzip.filepos + wsize < st.aimed.inside.gzip.savedFilepos) {buf : Dest} {len : Int}
    (hzero : st.aimed.saneLen len = 0) : (grubRead p st buf len).2.2.sha1ByteCount = st.sha1ByteCount := by
  simp only [grubRead, grubReadWith]
  rw [if_neg (by simp [State.aimed, hm])]
  split
  · rfl
  · have hpacked : st.aimed.compressedFile = true := hc
    rw [hskip, hzero]
    simp only [fileRead, hpacked, if_true, gunzipRead, State.gunzipEntered, if_neg hgoes]
    rfl

/-- The next read of a compressed file. -/
theorem Packed.read (hp : p.Healthy) {off base : Nat} {has : Word} {s : ι} {size pos : Nat} {taken : Nat → Nat} {st : State σ ι}
    (h : Packed p F off base has s size pos st) (hpack : Packs p (F.drop off) size taken) (hle : pos ≤ size) (hhas : has ≠ 0)
    (hfits : base + F.length < 2 ^ 32) (buf : Dest) (len : Int) (hf : (grubRead p st buf len).2.2.faulted = false)
    (herr : (grubRead p st buf len).2.2.errnum = .none) :
    Packed p F off base has s size (pos + countAt size pos len) (grubRead p st buf len).2.2 := by
  have hm := h.unpacking.measureKernel
  have hmax := h.filemax
  have hfile := h.filepos
  have hstart : st.startOf = pos := by
    rw [State.startOf, saneFilepos_of_le (by omega) (by omega), hfile, Int.toNat_natCast]
  have hsane : saneFilepos st.filepos st.filemax = pos := by
    rw [saneFilepos_of_le (by omega) (by omega), hfile]
  have hskip : measureSkipped (grubReadWith p (grubReadWith p noRead)) st.aimed = st.aimed := by
    rw [measureSkipped, if_neg]
    rintro ⟨-, hzero, hbehind⟩
    have hat : st.aimed.filepos = pos := hsane
    exact h.counted hpack (by omega) hle hzero
  have haimed : Unpacking p F off true (p.resetInflate s) ((pos + wsize - 1) / wsize) st.aimed :=
    h.unpacking.of_source rfl h.unpacking.errnum hm h.unpacking.compressedFile h.unpacking.performSha1 h.unpacking.reaches
  have hunpacks := haimed.read_behind hp (.outer true) buf len hm (by omega) h.unpacking.reaches hskip
    (by rw [hstart]; exact hsane) hf (.inr herr)
  have hwindow : windowAt p (p.resetInflate s) st.aimed.gzip.inflate ((pos + wsize - 1) / wsize) pos =
      (p.resetInflate s, (pos + wsize - 1) / wsize) := by
    rw [windowAt, if_neg]
    simp only [wsize]
    omega
  have hsize : st.filemax.toNat = size := by omega
  have hend := countAt_le hle len
  have hafter : windowsAfter ((pos + wsize - 1) / wsize) pos (countAt size pos len) =
      (pos + countAt size pos len + wsize - 1) / wsize := by
    simp only [windowsAfter, wsize]
    split <;> omega
  rw [hstart, hwindow, hsize, Unpacks, hafter] at hunpacks
  obtain ⟨state, hfed⟩ := hpack.windows s ((pos + countAt size pos len + wsize - 1) / wsize) (by simp only [wsize]; omega)
  rw [hfed] at hunpacks
  obtain ⟨-, -, hpos, hunpacking⟩ := hunpacks
  have hgoes : ¬ st.aimed.inside.gzip.filepos + wsize < st.aimed.inside.gzip.savedFilepos := by
    have hsaved : st.aimed.inside.gzip.savedFilepos = ((pos + wsize - 1) / wsize * wsize : Nat) := h.unpacking.window.savedFilepos
    have hown : st.aimed.inside.gzip.filepos = pos := hsane
    rw [hsaved, hown]
    simp only [wsize]
    omega
  refine ⟨hunpacking, ?_, ?_, hpos, fun hzero => ?_⟩
  · have htallied := h.tallied
    refine inside_lasting (tallied_lasting hp hhas hfits) (fun _ hs => hs.raw.compressedFile) hm h.unpacking.compressedFile hskip
      ?_ hf herr
    · rw [State.gunzipEntered, if_neg hgoes]
      refine ⟨⟨htallied.raw.measureKernel, rfl, htallied.raw.filemax, htallied.raw.stored.blocks, htallied.raw.stored.driver⟩,
        htallied.on, htallied.driver, ?_, htallied.count⟩
      have hpub : st.sha1HasToMeasure = has := htallied.published
      have haim : st.aimed.inside.sha1HasToMeasure = publish st.sha1HasToMeasure st.filemax := rfl
      rw [haim, publish, hpub, if_neg hhas]
  · exact (congrArg Settings.filemax (grubRead_keeps (p := p) st buf len)).trans hmax
  · have hnone : st.aimed.saneLen len = 0 := by
      rw [saneLen_count st len (by omega), hsize, hstart]
      omega
    rw [packed_nothing hm h.unpacking.compressedFile hskip hgoes hnone]
    exact h.untouched (by omega)

/-! ## Plain files -/

/-- A plain file behind a driver, read up to `pos`. -/
structure Plain (F : List Byte) (base : Nat) (has : Word) (pos : Nat) (st : State σ ι) : Prop where
  opened : RawOpen st F
  on : st.performSha1 = true
  driver : st.blockFile = false
  published : publish st.sha1HasToMeasure F.length = has
  count : st.sha1ByteCount.toNat = base + pos
  filepos : st.filepos = pos

theorem Plain.startOf {base pos : Nat} {has : Word} {st : State σ ι} (h : Plain F base has pos st) (hle : pos ≤ F.length) :
    st.startOf = pos := by
  have hmax := h.opened.filemax
  have hpos := h.filepos
  rw [State.startOf, saneFilepos_of_le (by omega) (by omega), hpos, Int.toNat_natCast]

/-- The next read of a plain file. -/
theorem Plain.read (hp : p.Healthy) {base pos : Nat} {has : Word} {st : State σ ι} (h : Plain F base has pos st) (hle : pos ≤ F.length)
    (hfits : base + F.length < 2 ^ 32) (buf : Dest) (len : Int) (hf : (grubRead p st buf len).2.2.faulted = false) :
    Plain F base has (pos + countAt F.length pos len) (grubRead p st buf len).2.2 ∧
      (grubRead p st buf len).2.2.sha1HasToMeasure = has := by
  have hreach := h.opened.reaches hf
  have hstart := h.startOf hle
  have hend := countAt_le hle len
  have hcount := h.count
  have hstep := raw_step hp (grubReadWith p noRead) h.opened buf hreach
  have hadd := raw_count_driver hp (grubReadWith p noRead) h.opened h.on h.driver buf hreach (by omega)
    (by rw [hstart]; split <;> omega)
  have hkeep := grubRead_keeps (p := p) st buf len
  have hhas : (grubRead p st buf len).2.2.sha1HasToMeasure = has := hstep.expected.trans h.published
  have hfile : (grubRead p st buf len).2.2.filepos = st.startOf + countAt F.length st.startOf len := hstep.filepos
  have hadd' : (grubRead p st buf len).2.2.sha1ByteCount.toNat = _ := hadd
  rw [hstart] at hadd' hfile
  refine ⟨⟨h.opened.read hp _ buf hreach, (congrArg Settings.performSha1 hkeep).trans h.on,
    (congrArg Settings.blockFile hkeep).trans h.driver, ?_, ?_, ?_⟩, hhas⟩
  · rw [hhas, ← h.published, publish_idem]
  · rw [hadd']
    split <;> omega
  · rw [hfile]
    rfl

/-! ## The header of a file behind a driver -/

/-- Reads of a stored file publish its size, or nothing. -/
theorem Reads.published (hp : p.Healthy) {st s : State σ ι} (h : Reads p st s) (hst : RawOpen st F) (hf : s.faulted = false) :
    publish s.sha1HasToMeasure F.length = publish st.sha1HasToMeasure F.length := by
  induction h with
  | refl => rfl
  | @read s h bytes len ih =>
    have hbefore := (grubRead_agree _ _ _ hf).1
    have hopen := h.rawOpen hp hst hbefore
    have hstep := raw_step hp (grubReadWith p noRead) hopen (.local bytes) (hopen.reaches hf)
    have hpub : (grubRead p s (.local bytes) len).2.2.sha1HasToMeasure = publish s.sha1HasToMeasure F.length := hstep.expected
    rw [hpub, publish_idem, ih hbefore]
  | seek _ offset ih => exact ih hf

theorem header_published (hp : p.Healthy) {st s : State σ ι} (hst : RawOpen st F) (h : gunzipTestHeader p st = (true, s))
    (hf : s.faulted = false) : publish s.sha1HasToMeasure F.length = publish st.sha1HasToMeasure F.length := by
  rcases testHeader_cases h with ⟨t, hreads, rfl⟩ | ⟨hd, size, hreads, -, rfl⟩
  · exact hreads.published hp hst hf
  · have hft : (hd.trailer p).2.2.faulted = false := hf
    have hfh : hd.faulted = false := (grubRead_agree _ _ _ hft).1
    have hread := reads_trailer p hd
    exact (hread.published hp (hreads.rawOpen hp hst hfh).atTrailer hft).trans (hreads.published hp hst hfh)

/-- A compressed file starts unpacking at its data. -/
theorem header_unpacking (hp : p.Healthy) {st s : State σ ι} (hst : RawOpen st F) (hoff : st.performSha1 = false)
    (h : gunzipTestHeader p st = (true, s)) (hf : s.faulted = false) (hc : s.compressedFile = true) {off : Nat}
    (hdata : s.gzip.dataOffset = off) (hle : off ≤ F.length) :
    ∃ s₀, Unpacking p F off false (p.resetInflate s₀) 0 s ∧ s.inside.filepos = off := by
  rcases testHeader_cases h with ⟨t, hreads, rfl⟩ | ⟨hd, size, hreads, -, rfl⟩
  · exact absurd ((hreads.rawOpen hp hst hf).atStart.compressedFile.symm.trans hc) (by decide)
  · have hft : (hd.trailer p).2.2.faulted = false := hf
    have hfh : hd.faulted = false := (grubRead_agree _ _ _ hft).1
    have hread := reads_trailer p hd
    have hopen := hread.rawOpen hp (hreads.rawOpen hp hst hfh).atTrailer hft
    have hquiet : (hd.trailer p).2.2.performSha1 = false :=
      (congrArg Settings.performSha1 hread.settings).trans ((congrArg Settings.performSha1 hreads.settings).trans hoff)
    have hdata' : (hd.trailer p).2.2.gzip.dataOffset = off := hdata
    have hstart := hopen.unpackingStart (p := p) hdata' hle size
    rw [hquiet] at hstart
    exact ⟨_, hstart, hdata⟩

/-! ## Links -/

/-- The sizes of the links are small enough for an `int`. -/
def Fit (links : List Nat) : Prop := ∀ n ∈ links, n ≤ 0x7FFFFFFF

theorem firstSize_fits {links : List Nat} (h : Fit links) : firstSize links < 2 ^ 32 := by
  induction links with
  | nil => exact Nat.two_pow_pos 32
  | cons n links ih =>
    have hn := h n List.mem_cons_self
    rw [firstSize]
    split
    · exact ih fun m hm => h m (List.mem_cons_of_mem n hm)
    · omega

/-- The links have been hashed, and the first of them that is not empty is expected. -/
structure Linked (st : State σ ι) : Prop where
  count : st.sha1ByteCount = BitVec.ofNat 32 st.links.sum
  published : st.sha1HasToMeasure = BitVec.ofNat 32 (firstSize st.links)
  fit : Fit st.links

/-- A link is read as a file. -/
theorem Linked.onLink (hp : p.Healthy) {st : State σ ι} (h : Linked st) (hready : Ready st) (hon : st.performSha1 = true)
    (hm : st.measureKernel = false) (hpos : st.filepos = 0) (link : File) (driver : σ) (buf : Nat → Byte)
    (hf : (grubRead p (st.onLink link driver) (.local buf) link.bytes.length).2.2.faulted = false) :
    Linked (grubRead p (st.onLink link driver) (.local buf) link.bytes.length).2.2 := by
  have hraw : RawOpen (st.onLink link driver) link.bytes := by
    refine ⟨⟨hm, hready.compressedFile, rfl, fun hb => ?_, fun _ => ⟨hready.mounted, rfl⟩⟩, hready.errnum⟩
    exact absurd (hready.blockFile.symm.trans hb) Bool.false_ne_true
  have hreach := hraw.reaches hf
  have hlinks := congrArg Settings.links (grubRead_keeps (p := p) (st.onLink link driver) (.local buf) link.bytes.length)
  have hlinks' : (grubRead p (st.onLink link driver) (.local buf) link.bytes.length).2.2.links =
      st.links ++ [link.bytes.length] := hlinks
  have hstart : (st.onLink link driver).startOf = 0 := by
    have hat : (st.onLink link driver).filepos = 0 := hpos
    rw [State.startOf, hat]
    exact saneFilepos_zero _
  have hcount := raw_count hp (grubReadWith p noRead) hraw hon (.local buf) hreach
  have hstep := raw_step hp (grubReadWith p noRead) hraw (.local buf) hreach
  have hzero : countedTo st.sha1ByteCount 0 = st.sha1ByteCount := by
    rw [countedTo]
    split
    next hz => exact hz.symm
    next => rfl
  constructor
  · refine hcount.trans ?_
    have hb : (st.onLink link driver).blockFile = false := hready.blockFile
    have hsame : (st.onLink link driver).sha1ByteCount = st.sha1ByteCount := rfl
    rw [if_neg (by rw [hb]; decide), hstart, countAt_self (Nat.le_refl _), hsame, hzero, h.count, hlinks', List.sum_append,
      List.sum_singleton, BitVec.ofNat_add]
  · refine hstep.expected.trans ?_
    have hsame : (st.onLink link driver).sha1HasToMeasure = st.sha1HasToMeasure := rfl
    rw [hsame, h.published, hlinks', publish_firstSize (firstSize_fits h.fit)]
  · rw [hlinks']
    intro n hn
    rcases List.mem_append.1 hn with hn | hn
    · exact h.fit n hn
    · rw [List.mem_singleton.1 hn]
      exact link.fits

/-- The walk to a file, with measuring on. -/
theorem runWalk_linked (hp : p.Healthy) (walk : DirWalk σ) : ∀ {st s : State σ ι}, Linked st → Ready st → st.performSha1 = true →
    st.measureKernel = false → st.filepos = 0 → runWalk p walk st = (true, s) → s.faulted = false → Linked s := by
  induction walk with
  | opened file fsmax driver =>
    intro st s h _ _ _ _ heq _
    obtain rfl := (congrArg Prod.snd heq).symm
    exact ⟨h.count, h.published, h.fit⟩
  | failed errnum filepos filemax driver => intro st s _ _ _ _ _ heq; cases heq
  | readLink link linkbuf driver next ih =>
    intro st s h hready hon hm hpos heq hf
    simp only [runWalk] at heq
    have herr := linkRead_errnum hp hready link driver linkbuf link.bytes.length
    have hkeep := grubRead_keeps (p := p) (st.onLink link driver) (.local linkbuf) link.bytes.length
    have hgoes := congrArg (fun r => r.2.faulted) heq
    have hread := h.onLink hp hready hon hm hpos link driver linkbuf (runWalk_agree _ (hgoes.trans hf)).1
    generalize grubRead p (st.onLink link driver) (.local linkbuf) link.bytes.length = r at heq herr hkeep hread
    have hready' : Ready r.2.2.atStart :=
      ⟨herr, (congrArg Settings.compressedFile hkeep).trans hready.compressedFile,
        (congrArg Settings.blockFile hkeep).trans hready.blockFile, (congrArg Settings.mounted hkeep).trans hready.mounted,
        (congrArg Settings.fsmax hkeep).trans hready.fsmax⟩
    have hlinked : Linked r.2.2.atStart := ⟨hread.count, hread.published, hread.fit⟩
    exact ih _ _ _ hlinked hready' ((congrArg Settings.performSha1 hkeep).trans hon)
      ((congrArg Settings.measureKernel hkeep).trans hm) rfl heq hf

/-! ## What opening a file behind a driver leaves -/

/-- A file behind a driver, of which nothing has been read yet. -/
inductive Fresh (p : Platform σ ι) (F : List Byte) (base : Nat) (has : Word) (st : State σ ι) : Prop where
  | plain (plain : Plain F base has 0 st)
  | packed (compressedFile : st.compressedFile = true) (published : has ≠ 0) (positive : 0 < F.length)
      (start : ∀ off size : Nat, st.gzip.dataOffset = off → off ≤ F.length → st.filemax = size →
        ∃ s, Packed p F off base has s size 0 st)

/-- The header has been looked at with measuring off. -/
structure Headed (p : Platform σ ι) (F : List Byte) (st s : State σ ι) : Prop where
  count : s.sha1ByteCount = st.sha1ByteCount
  published : publish s.sha1HasToMeasure F.length = publish st.sha1HasToMeasure F.length
  driver : s.blockFile = false
  filepos : s.filepos = 0
  kernelFilesize : s.kernelFilesize = st.kernelFilesize
  kind : RawOpen s F ∨ PackedOpen s F ∧ 0 < F.length ∧ ∀ off : Nat, s.gzip.dataOffset = off → off ≤ F.length →
    ∃ s₀, Unpacking p F off false (p.resetInflate s₀) 0 s ∧ s.inside.filepos = off

theorem header_headed (hp : p.Healthy) {st s : State σ ι} (hst : RawOpen st F) (hoff : st.performSha1 = false)
    (hb : st.blockFile = false) (hfits : F.length ≤ 0x7FFFFFFF) (h : gunzipTestHeader p st = (true, s)) (hf : s.faulted = false) :
    Headed p F st s := by
  obtain ⟨-, hcount, -, hpos, hsize, hkind, hlen⟩ := header_quiet hp hst hoff hfits h hf
  refine ⟨hcount, header_published hp hst h hf, (testHeader_blockFile h).trans hb, hpos, hsize, hkind.imp id fun hpacked => ?_⟩
  exact ⟨hpacked, hlen hpacked.compressedFile, fun off hdata hle =>
    header_unpacking hp hst hoff h hf hpacked.compressedFile hdata hle⟩

/-- Measuring goes on. -/
theorem Headed.probed {st s : State σ ι} (h : Headed p F st s) {base : Nat} (hbase : st.sha1ByteCount.toNat = base) :
    Fresh p F base (publish st.sha1HasToMeasure F.length) (s.probed false) := by
  have hcount : s.sha1ByteCount.toNat = base := by rw [h.count]; exact hbase
  rcases h.kind with hraw | ⟨hpacked, hlen, hstart⟩
  · exact .plain ⟨hraw.probed, rfl, h.driver, h.published, hcount, h.filepos⟩
  · have hhas : s.sha1HasToMeasure = publish st.sha1HasToMeasure F.length := by
      rw [← h.published, publish, if_neg hpacked.published]
    have hraw := hpacked.raw
    refine .packed hpacked.compressedFile (by rw [← hhas]; exact hpacked.published) hlen fun off size hdata hle hsize => ?_
    obtain ⟨s₀, hunpacking, hat⟩ := hstart off hdata hle
    have hzero : (0 + wsize - 1) / wsize = 0 := by decide
    refine ⟨s₀, ?_, ⟨⟨rfl, rfl, hraw.filemax, hraw.stored.blocks, hraw.stored.driver⟩, rfl, h.driver, hhas, off, hat, Nat.le_refl off,
      hle, .inl ⟨rfl, hcount⟩⟩, hsize, h.filepos, fun _ => hcount⟩
    rw [hzero]
    exact hunpacking.of_source rfl hunpacking.errnum rfl hunpacking.compressedFile rfl hunpacking.reaches

/-- A kernel is going to be copied. -/
theorem Headed.copyPrepared {st s : State σ ι} (h : Headed p F st s) (hzero : st.sha1ByteCount.toNat = 0)
    (hsize : st.kernelFilesize = F.length) (hfits : F.length ≤ 0x7FFFFFFF) :
    Fresh p F 0 (BitVec.ofNat 32 F.length) (s.probed true).copyPrepared := by
  have hcount : s.sha1ByteCount.toNat = 0 := by rw [h.count]; exact hzero
  have hhas : (s.probed true).copyPrepared.sha1HasToMeasure = BitVec.ofNat 32 F.length := by
    have hset : (s.probed true).copyPrepared.sha1HasToMeasure = BitVec.ofInt 32 s.kernelFilesize := rfl
    rw [hset, h.kernelFilesize, hsize, BitVec.ofInt_natCast]
  rcases h.kind with hraw | ⟨hpacked, hlen, hstart⟩
  · refine .plain ⟨⟨⟨rfl, hraw.compressedFile, hraw.filemax, hraw.stored.blocks, hraw.stored.driver⟩, hraw.errnum⟩, rfl, h.driver,
      ?_, hcount, rfl⟩
    rw [hhas, publish, BitVec.ofInt_natCast]
    exact ite_self _
  · have hraw := hpacked.raw
    have hne : BitVec.ofNat 32 F.length ≠ 0 := by
      intro hno
      have hval := ofNat_toNat (n := F.length) (by omega)
      rw [hno] at hval
      have hnone : (0 : Word).toNat = 0 := rfl
      omega
    refine .packed hpacked.compressedFile hne hlen fun off size hdata hle hmax => ?_
    obtain ⟨s₀, hunpacking, hat⟩ := hstart off hdata hle
    have hstarts : (0 + wsize - 1) / wsize = 0 := by decide
    refine ⟨s₀, ?_, ⟨⟨rfl, rfl, hraw.filemax, hraw.stored.blocks, hraw.stored.driver⟩, rfl, h.driver, hhas, off, hat, Nat.le_refl off,
      hle, .inl ⟨rfl, hcount⟩⟩, hmax, rfl, fun _ => hcount⟩
    rw [hstarts]
    exact hunpacking.of_source rfl hunpacking.errnum rfl hunpacking.compressedFile rfl hunpacking.reaches

end TrustedGrub.Disk
