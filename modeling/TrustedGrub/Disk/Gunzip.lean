import TrustedGrub.Disk.Measured

/-!
# Unpacking

What `gunzip_read` takes from a stored file and what it delivers. The decoder of
`inflate` is a tree that asks for bytes; `feed` runs it on the bytes of the file
directly, and the reads of `get_byte`, a buffer at a time, come to the same.
-/

namespace TrustedGrub.Disk
open Fips180 (Byte Word Words)
open Memory (segment slice)

variable {σ ι : Type} {p : Platform σ ι} {F : List Byte}

/-- What inflating comes to: a window and the number of bytes taken so far, bad data, or
a wish for more bytes than there are. -/
inductive Fed (ι : Type) where
  | window (state : ι) (taken : Nat)
  | bad
  | starved

/-- A decoder on the bytes of `data`, from byte `n` on. -/
def Inflating.feed (data : List Byte) : Inflating ι → Nat → Fed ι
  | .getByte next, n => if h : n < data.length then (next data[n] .none).feed data (n + 1) else .starved
  | .window state bad, n => if bad then .bad else .window state n
  | .abandoned _, _ => .bad

/-- The first `k` windows of the data. -/
def feedWindows (p : Platform σ ι) (data : List Byte) (state : ι) : Nat → Fed ι
  | 0 => .window state 0
  | k + 1 =>
    match feedWindows p data state k with
    | .window state n => (p.inflateWindow state).feed data n
    | fed => fed

/-- Where the stored file stands once `n` bytes behind the header have been taken. -/
def rawPosition (size off n : Nat) : Nat := if n = 0 then off else min size (off + inbufsiz * ((n - 1) / inbufsiz + 1))

/-! ## Bytes -/

/-- The readers that `get_byte` calls: `grub_read`, as it calls itself. The last level
reads with measuring off. -/
inductive Fetches (p : Platform σ ι) : Reader σ ι → Bool → Prop where
  | outer (on : Bool) : Fetches p (grubReadWith p (grubReadWith p noRead)) on
  | nested : Fetches p (grubReadWith p noRead) false

/-- What such a reader comes to. -/
structure Fetched (F : List Byte) (st : State σ ι) (buf : Dest) (len : Int) (r : Int × (Nat → Byte) × State σ ι) : Prop where
  bytes : r.2.1 = Memory.store buf.bytes 0 (segment F st.startOf (countAt F.length st.startOf len))
  filepos : r.2.2.filepos = st.startOf + countAt F.length st.startOf len
  gzip : r.2.2.gzip = st.gzip
  opened : RawOpen r.2.2 F
  performSha1 : r.2.2.performSha1 = st.performSha1

section Fetches
variable {R : Reader σ ι} {on : Bool}

theorem Fetches.fetched (hp : p.Healthy) (hR : Fetches p R on) {st : State σ ι} (hon : st.performSha1 = on) (h : RawOpen st F)
    (buf : Dest) (len : Int) (hf : (R st buf len).2.2.faulted = false) : Fetched F st buf len (R st buf len) := by
  cases hR with
  | outer =>
    have hreach := h.reaches hf
    have hstep := raw_step hp noRead h buf hreach
    have hkeep := grubReadWith_keeps (p := p) (grubReadWith_keeps (p := p) noRead_keeps) st buf len
    obtain ⟨driver, blocks, heq, -⟩ := raw_read hp noRead h buf hreach
    exact ⟨by rw [heq], hstep.filepos, hstep.gzip, h.read hp noRead buf hreach, congrArg Settings.performSha1 hkeep⟩
  | nested =>
    have hreach := h.reaches hf
    have hskip : measureSkipped noRead st.aimed = st.aimed := by
      rw [measureSkipped, if_neg]
      exact fun hc => absurd (hc.1.symm.trans hon) (by decide)
    obtain ⟨driver, blocks, heq, hhold⟩ := read_behind hp buf len h hskip h.aimed h.start.1 hreach
    have hquiet (filepos : Int) : (st.aimed.served driver blocks filepos).performSha1 = false := hon
    rw [State.measured_quiet (hquiet _)] at heq
    rw [heq]
    exact ⟨rfl, rfl, rfl, h.aimed.served hhold _ _, rfl⟩

theorem Fetches.mono (hR : Fetches p R on) (st : State σ ι) (buf : Dest) (len : Int)
    (hf : (R st buf len).2.2.faulted = false) : st.faulted = false := by
  cases hR with
  | outer => exact (grubReadWith_agree (grubReadWith_agree noRead_agree) st buf len hf).1
  | nested => exact (grubReadWith_agree noRead_agree st buf len hf).1

/-- Inside the decompressor, `n` bytes behind the header have been taken. -/
structure Streams (F : List Byte) (off n : Nat) (on : Bool) (st : State σ ι) : Prop where
  opened : RawOpen st F
  performSha1 : st.performSha1 = on
  offset : st.gzip.dataOffset = off
  taken : off + n ≤ F.length
  filepos : st.filepos = rawPosition F.length off n
  bufloc : 0 < n → st.gzip.bufloc = (n - 1) % inbufsiz + 1
  inbuf : 0 < n → ∀ j < inbufsiz, ∀ h : off + inbufsiz * ((n - 1) / inbufsiz) + j < F.length,
    st.gzip.inbuf j = F[off + inbufsiz * ((n - 1) / inbufsiz) + j]

/-- The stored file has been read to its end. -/
structure Ended (F : List Byte) (on : Bool) (st : State σ ι) : Prop where
  raw : RawFile st F
  performSha1 : st.performSha1 = on
  filepos : st.filepos = F.length

theorem Streams.ended {off n : Nat} {st : State σ ι} (h : Streams F off n on st) (hall : off + n = F.length) : Ended F on st := by
  refine ⟨h.opened.toRawFile, h.performSha1, ?_⟩
  rw [h.filepos, rawPosition]
  simp only [inbufsiz]
  split <;> omega

/-- `gunzip_read`'s own position, which `get_byte` leaves alone. -/
structure SamePosition (s st : State σ ι) : Prop where
  savedFilepos : s.gzip.savedFilepos = st.gzip.savedFilepos
  filepos : s.gzip.filepos = st.gzip.filepos

theorem RawFile.start_end {st : State σ ι} (h : RawFile st F) (hpos : st.filepos = F.length) : st.startOf = F.length := by
  have hmax := h.filemax
  rw [State.startOf, saneFilepos_of_le (by omega) (by omega)]
  omega

theorem Fetches.lasting (hp : p.Healthy) (hR : Fetches p R on) : Lasting R (fun st : State σ ι => Ended F on st) where
  mono := hR.mono
  read st buf len he h hf := by
    have hfetched := hR.fetched hp h.performSha1 ⟨h.raw, he⟩ buf len hf
    have hcount : countAt F.length F.length len = 0 := by
      have := countAt_le (Nat.le_refl F.length) len
      omega
    refine ⟨⟨hfetched.opened.toRawFile, hfetched.performSha1.trans h.performSha1, ?_⟩, hfetched.opened.errnum⟩
    rw [hfetched.filepos, h.raw.start_end h.filepos, hcount]
    exact Int.add_zero _
  unpack st gzip errnum _ h :=
    ⟨⟨h.raw.measureKernel, h.raw.compressedFile, h.raw.filemax, h.raw.stored.blocks, h.raw.stored.driver⟩, h.performSha1, h.filepos⟩

/-- The next buffer is read. -/
theorem Streams.fill (hp : p.Healthy) (hR : Fetches p R on) {off n : Nat} {st : State σ ι} (h : Streams F off n on st)
    (hn : off + n < F.length) (hwhole : n % inbufsiz = 0) (hf : (fillBuffer R st).faulted = false) :
    RawOpen (fillBuffer R st) F ∧ (fillBuffer R st).performSha1 = on ∧ (fillBuffer R st).gzip.dataOffset = off ∧
      (fillBuffer R st).filepos = rawPosition F.length off (n + 1) ∧
      (fillBuffer R st).gzip.bufloc = 0 ∧ SamePosition (fillBuffer R st) st ∧
      ∀ j < inbufsiz, ∀ h : off + n + j < F.length, (fillBuffer R st).gzip.inbuf j = F[off + n + j] := by
  have hraw : RawOpen st.bufferUsed F :=
    ⟨⟨h.opened.measureKernel, h.opened.compressedFile, h.opened.filemax, h.opened.stored.blocks, h.opened.stored.driver⟩,
      h.opened.errnum⟩
  have hon : st.bufferUsed.performSha1 = on := h.performSha1
  have hread := hR.fetched hp hon hraw (.local st.gzip.inbuf) inbufsiz hf
  have hpos : st.filepos = (off + n : Nat) := by
    rw [h.filepos, rawPosition]
    simp only [inbufsiz] at hwhole ⊢
    split <;> omega
  have hstart : st.bufferUsed.startOf = off + n := by
    have hmax := h.opened.filemax
    have hpos' : st.bufferUsed.filepos = (off + n : Nat) := hpos
    have hmax' : st.bufferUsed.filemax = F.length := hmax
    rw [State.startOf, saneFilepos_of_le (by omega) (by omega), hpos', Int.toNat_natCast]
  have hcount : countAt F.length (off + n) inbufsiz = min inbufsiz (F.length - (off + n)) := by
    simp only [countAt]
    split <;> omega
  have hseg : (segment F (off + n) (min inbufsiz (F.length - (off + n)))).length = min inbufsiz (F.length - (off + n)) :=
    Memory.segment_length (by omega)
  have hsaved := congrArg Gzip.savedFilepos hread.gzip
  have hown := congrArg Gzip.filepos hread.gzip
  have hopen := hread.opened
  refine ⟨⟨⟨hopen.measureKernel, hopen.compressedFile, hopen.filemax, hopen.stored.blocks, hopen.stored.driver⟩, hopen.errnum⟩,
    hread.performSha1.trans h.performSha1, ?_, ?_, ?_, ⟨hsaved, hown⟩, fun j hj hlt => ?_⟩
  · exact (congrArg Gzip.dataOffset hread.gzip).trans h.offset
  · have hfilepos : (fillBuffer R st).filepos = _ := hread.filepos
    rw [hfilepos, hstart, hcount, rawPosition]
    simp only [inbufsiz] at hwhole ⊢
    split <;> omega
  · exact congrArg Gzip.bufloc hread.gzip
  · have hbytes : (fillBuffer R st).gzip.inbuf = _ := hread.bytes
    rw [hstart, hcount] at hbytes
    have hat : j < (segment F (off + n) (min inbufsiz (F.length - (off + n)))).length := by rw [hseg]; omega
    have hstored := Memory.store_at (m := st.gzip.inbuf) (a := 0) hat
    rw [Nat.zero_add] at hstored
    rw [hbytes]
    refine hstored.trans ?_
    simp only [Memory.segment, List.getElem_take, List.getElem_drop]

/-- `get_byte` refills its buffer exactly when a whole number of buffers has been taken. -/
theorem Streams.refills {off n : Nat} {st : State σ ι} (h : Streams F off n on st) (hn : off + n < F.length) :
    (st.filepos = st.gzip.dataOffset ∨ st.gzip.bufloc = inbufsiz) ↔ n % inbufsiz = 0 := by
  have hpos := h.filepos
  have hoff := h.offset
  have hbuf := h.bufloc
  simp only [rawPosition, inbufsiz] at hpos hbuf ⊢
  by_cases hzero : n = 0
  · rw [if_pos hzero] at hpos
    exact ⟨fun _ => by omega, fun _ => .inl (hpos.trans hoff.symm)⟩
  · rw [if_neg hzero] at hpos
    have hloc := hbuf (by omega)
    constructor
    · rintro (heq | heq) <;> omega
    · intro hmod
      exact .inr (by omega)

/-- `get_byte` delivers the next byte of the file. -/
theorem Streams.byte (hp : p.Healthy) (hR : Fetches p R on) {off n : Nat} {st : State σ ι} (h : Streams F off n on st)
    (hn : off + n < F.length) (hf : (getByte R st).2.faulted = false) :
    (getByte R st).1 = F[off + n] ∧ Streams F off (n + 1) on (getByte R st).2 ∧ SamePosition (getByte R st).2 st := by
  simp only [getByte] at hf ⊢
  by_cases hwhole : n % inbufsiz = 0
  · rw [if_pos ((h.refills hn).2 hwhole)] at hf ⊢
    obtain ⟨hopen, hon, hoff, hpos, hloc, hsame, hbytes⟩ := h.fill hp hR hn hwhole hf
    have hdiv : inbufsiz * (n / inbufsiz) = n := by simp only [inbufsiz] at hwhole ⊢; omega
    refine ⟨?_, ⟨⟨⟨hopen.measureKernel, hopen.compressedFile, hopen.filemax, hopen.stored.blocks, hopen.stored.driver⟩,
      hopen.errnum⟩, hon, hoff, hn, hpos, fun _ => ?_, fun _ j hj hlt => ?_⟩, hsame.savedFilepos, hsame.filepos⟩
    · rw [hloc]
      exact hbytes 0 (by decide) hn
    · simp only [State.byteTaken, hloc, Nat.add_sub_cancel, hwhole]
    · simp only [Nat.add_sub_cancel, hdiv] at hlt ⊢
      exact hbytes j hj hlt
  · rw [if_neg (mt (h.refills hn).1 hwhole)] at hf ⊢
    have hpos : 0 < n := by
      rcases Nat.eq_zero_or_pos n with rfl | hpos
      · exact absurd rfl hwhole
      · exact hpos
    have hopen := h.opened
    have hloc := h.bufloc hpos
    have hbytes := h.inbuf hpos
    have hmod : (n - 1) % inbufsiz + 1 = n % inbufsiz := by simp only [inbufsiz] at hwhole ⊢; omega
    have hdiv : (n - 1) / inbufsiz = n / inbufsiz := by simp only [inbufsiz] at hwhole ⊢; omega
    have hat : off + inbufsiz * (n / inbufsiz) + n % inbufsiz = off + n := by simp only [inbufsiz]; omega
    rw [hdiv] at hbytes
    refine ⟨?_, ⟨⟨⟨hopen.measureKernel, hopen.compressedFile, hopen.filemax, hopen.stored.blocks, hopen.stored.driver⟩,
      hopen.errnum⟩, h.performSha1, h.offset, hn, ?_, fun _ => ?_, fun _ j hj hlt => ?_⟩, rfl, rfl⟩
    · rw [hloc, hmod, hbytes _ (Nat.mod_lt _ (by decide)) (by omega)]
      simp only [hat]
    · have hfile : st.filepos = rawPosition F.length off n := h.filepos
      simp only [State.byteTaken, hfile, rawPosition]
      rw [if_neg (by omega), if_neg (by omega), hdiv, Nat.add_sub_cancel]
    · simp only [State.byteTaken, hloc, hmod, Nat.add_sub_cancel]
    · simp only [Nat.add_sub_cancel] at hlt ⊢
      exact hbytes j hj hlt

/-- A byte is wanted that is not there: the file has been read to its end. -/
theorem Streams.starves (hp : p.Healthy) (hR : Fetches p R on) {off n : Nat} {st : State σ ι} (h : Streams F off n on st)
    (hn : F.length ≤ off + n) (hf : (getByte R st).2.faulted = false) :
    Ended F on (getByte R st).2 ∧ (getByte R st).2.errnum = .none :=
  ((hR.lasting hp).getByte hf).2 h.opened.errnum (h.ended (Nat.le_antisymm h.taken hn))

/-- What a decoder that runs over the reads of `get_byte` comes to. -/
def Comes (F : List Byte) (off : Nat) (on : Bool) (st s : State σ ι) : Fed ι → Prop
  | .window state n => Streams F off n on s ∧ s.gzip.inflate = state ∧
      s.gzip.savedFilepos = st.gzip.savedFilepos + wsize ∧ s.gzip.filepos = st.gzip.filepos
  | .bad => s.errnum ≠ .none
  | .starved => Ended F on s

theorem Comes.of_same {off : Nat} {st st' s : State σ ι} {fed : Fed ι} (h : Comes F off on st' s fed)
    (hsame : SamePosition st' st) : Comes F off on st s fed := by
  cases fed with
  | window state n =>
    obtain ⟨hstreams, hinflate, hsaved, hpos⟩ := h
    exact ⟨hstreams, hinflate, by rw [hsaved, hsame.savedFilepos], hpos.trans hsame.filepos⟩
  | bad => exact h
  | starved => exact h

/-- **Unpacking reads the file**: a decoder comes to the same over the reads of
`get_byte` as on the bytes behind the header. -/
theorem runInflate_feed (hp : p.Healthy) (hR : Fetches p R on) {off : Nat} (t : Inflating ι) : ∀ {n : Nat} {st : State σ ι},
    Streams F off n on st → (runInflate R t st).faulted = false →
    Comes F off on st (runInflate R t st) (t.feed (F.drop off) n) := by
  induction t with
  | getByte next ih =>
    intro n st h hf
    simp only [runInflate] at hf ⊢
    have hfb : (getByte R st).2.faulted = false := ((hR.lasting (F := F) hp).runInflate _ hf).1
    by_cases hn : off + n < F.length
    · obtain ⟨hbyte, hstreams, hsame⟩ := h.byte hp hR hn hfb
      have hdata : n < (F.drop off).length := by rw [List.length_drop]; omega
      have hat : (F.drop off)[n] = F[off + n] := List.getElem_drop
      have hrest := ih _ _ hstreams hf
      rw [hbyte, hstreams.opened.errnum] at hrest
      rw [Inflating.feed, dif_pos hdata, hat, hbyte, hstreams.opened.errnum]
      exact hrest.of_same hsame
    · obtain ⟨hended, he'⟩ := h.starves hp hR (Nat.le_of_not_lt hn) hfb
      rw [Inflating.feed, dif_neg (by rw [List.length_drop]; omega)]
      exact ((hR.lasting hp).runInflate _ hf).2 he' hended
  | window state bad =>
    intro n st h hf
    have hopen := h.opened
    simp only [Inflating.feed, runInflate]
    split
    next hbad => simp [Comes, State.windowDone, hbad]
    next hgood =>
      refine ⟨⟨⟨⟨hopen.measureKernel, hopen.compressedFile, hopen.filemax, hopen.stored.blocks, hopen.stored.driver⟩, ?_⟩,
        h.performSha1, h.offset, h.taken, h.filepos, h.bufloc, h.inbuf⟩, rfl, rfl, rfl⟩
      simp only [State.windowDone, if_neg hgood, hopen.errnum]
  | abandoned state =>
    intro n st h hf
    simp [Inflating.feed, runInflate, Comes, State.windowLost, h.opened.errnum]

end Fetches

end TrustedGrub.Disk
