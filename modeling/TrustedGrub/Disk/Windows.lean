import TrustedGrub.Disk.Gunzip

/-!
# Windows

`gunzip_read` unpacks a window at a time and copies out of the current one. Window
`k` of the data is the same however the windows before it were read, so what a read
delivers depends on the data and on the position alone.
-/

namespace TrustedGrub.Disk
open Fips180 (Byte Word Words)
open Memory (slice store)

variable {σ ι : Type} {p : Platform σ ι} {F : List Byte} {R : Reader σ ι} {on : Bool} {off : Nat} {s₀ : ι}

/-- Byte `i` of what the data unpack to. -/
def unpackedByte (p : Platform σ ι) (data : List Byte) (s₀ : ι) (i : Nat) : Byte :=
  match feedWindows p data s₀ (i / wsize + 1) with
  | .window state _ => p.slide state (i % wsize)
  | _ => 0

/-- Data that are bad, or that end too early, stay so. -/
theorem feedWindows_mono {data : List Byte} {k : Nat} {fed : Fed ι} (h : feedWindows p data s₀ k = fed)
    (hbad : fed = .bad ∨ fed = .starved) {l : Nat} (hle : k ≤ l) : feedWindows p data s₀ l = fed := by
  induction l, hle using Nat.le_induction with
  | base => exact h
  | succ l _ ih =>
    rw [feedWindows, ih]
    rcases hbad with rfl | rfl <;> rfl

/-- Inside the decompressor, `k` windows have been unpacked since it started afresh. -/
structure AtWindow (p : Platform σ ι) (F : List Byte) (off : Nat) (on : Bool) (s₀ : ι) (k : Nat) (st : State σ ι) : Prop where
  streams : ∃ n, Streams F off n on st ∧ feedWindows p (F.drop off) s₀ k = .window st.gzip.inflate n
  savedFilepos : st.gzip.savedFilepos = (k * wsize : Nat)

/-- What the wish for `k` windows comes to, with the position at `pos`. -/
def Proceeds (p : Platform σ ι) (F : List Byte) (off : Nat) (on : Bool) (s₀ : ι) (k : Nat) (pos : Int) (s : State σ ι) : Prop :=
  match feedWindows p (F.drop off) s₀ k with
  | .window _ _ => AtWindow p F off on s₀ k s ∧ s.gzip.filepos = pos
  | .bad => s.errnum ≠ .none
  | .starved => Ended F on s

theorem AtWindow.errnum {k : Nat} {st : State σ ι} (h : AtWindow p F off on s₀ k st) : st.errnum = .none := by
  obtain ⟨n, hstreams, -⟩ := h.streams
  exact hstreams.opened.errnum

/-- The next window. -/
theorem AtWindow.next (hp : p.Healthy) (hR : Fetches p R on) {k : Nat} {st : State σ ι} (h : AtWindow p F off on s₀ k st)
    (hf : (inflateWindow p R st).faulted = false) : Proceeds p F off on s₀ (k + 1) st.gzip.filepos (inflateWindow p R st) := by
  obtain ⟨n, hstreams, hfed⟩ := h.streams
  rw [inflateWindow, if_pos h.errnum] at hf ⊢
  have hcomes := runInflate_feed hp hR (p.inflateWindow st.gzip.inflate) hstreams hf
  have hnext : feedWindows p (F.drop off) s₀ (k + 1) = (p.inflateWindow st.gzip.inflate).feed (F.drop off) n := by
    rw [feedWindows, hfed]
  rw [Proceeds, hnext]
  generalize hr : (p.inflateWindow st.gzip.inflate).feed (F.drop off) n = fed at hcomes hnext
  cases fed with
  | window state m =>
    obtain ⟨hstreams', hinflate, hsaved, hpos⟩ := hcomes
    refine ⟨⟨⟨m, hstreams', by rw [hnext, hinflate]⟩, ?_⟩, hpos⟩
    rw [hsaved, h.savedFilepos, ← Nat.cast_add, Nat.succ_mul]
  | bad => exact hcomes
  | starved => exact hcomes

/-- A pending error stays. -/
theorem inflateTo_errnum (fuel : Nat) : ∀ {st : State σ ι}, st.errnum ≠ .none → (inflateTo p R fuel st).errnum ≠ .none := by
  induction fuel with
  | zero => intro st h; exact h
  | succ fuel ih =>
    intro st h
    simp only [inflateTo]
    split
    · refine ih ?_
      rw [inflateWindow, if_neg h]
      exact h
    · exact h

/-- Windows are unpacked up to the one that holds the position. -/
theorem AtWindow.inflateTo (hp : p.Healthy) (hR : Fetches p R on) {pos : Nat} (fuel : Nat) : ∀ {k : Nat} {st : State σ ι},
    AtWindow p F off on s₀ k st → st.gzip.filepos = pos → k ≤ pos / wsize + 1 → pos / wsize + 1 ≤ k + fuel →
    (inflateTo p R fuel st).faulted = false → Proceeds p F off on s₀ (pos / wsize + 1) pos (inflateTo p R fuel st) := by
  induction fuel with
  | zero =>
    intro k st h hpos hle hfuel _
    obtain rfl : k = pos / wsize + 1 := by omega
    obtain ⟨n, -, hfed⟩ := h.streams
    rw [Proceeds, hfed]
    exact ⟨h, hpos⟩
  | succ fuel ih =>
    intro k st h hpos hle hfuel hf
    have hsaved := h.savedFilepos
    simp only [Disk.inflateTo] at hf ⊢
    simp only [wsize] at hsaved hle hfuel ih ⊢
    by_cases hbehind : st.gzip.savedFilepos ≤ st.gzip.filepos
    · rw [if_pos hbehind] at hf ⊢
      have hfw : (inflateWindow p R st).faulted = false := ((hR.lasting (F := F) hp).inflateTo _ hf).1
      have hnext := h.next hp hR hfw
      have hreach : k + 1 ≤ pos / 0x8000 + 1 := by omega
      rw [Proceeds] at hnext
      split at hnext
      next _ _ hfed => exact ih hnext.1 (hnext.2.trans hpos) hreach (by omega) hf
      next hfed =>
        rw [Proceeds, feedWindows_mono hfed (.inl rfl) hreach]
        exact inflateTo_errnum fuel hnext
      next hfed =>
        rw [Proceeds, feedWindows_mono hfed (.inr rfl) hreach]
        exact ((hR.lasting hp).inflateTo _ hf).2 hnext
    · rw [if_neg hbehind] at hf ⊢
      obtain rfl : k = pos / 0x8000 + 1 := by omega
      obtain ⟨n, -, hfed⟩ := h.streams
      rw [Proceeds, hfed]
      exact ⟨h, hpos⟩

/-- The windows unpacked by a read of `len` bytes at `pos`, from `k` on. -/
def windowsAfter (k pos len : Nat) : Nat := if len = 0 then k else (pos + len - 1) / wsize + 1

/-- What the loop of `gunzip_read` comes to. -/
def Copies (p : Platform σ ι) (F : List Byte) (off : Nat) (on : Bool) (s₀ : ι) (k pos len : Nat) (bytes : Nat → Byte) (at' : Nat)
    (r : (Nat → Byte) × State σ ι) : Prop :=
  match feedWindows p (F.drop off) s₀ (windowsAfter k pos len) with
  | .window _ _ =>
    AtWindow p F off on s₀ (windowsAfter k pos len) r.2 ∧ r.2.gzip.filepos = (pos + len : Nat) ∧
      r.1 = store bytes at' (slice (unpackedByte p (F.drop off) s₀) pos len)
  | .bad => r.2.errnum ≠ .none
  | .starved => Ended F on r.2

theorem gunzipLoop_errnum {buf : Dest} (fuel : Nat) {at' len : Nat} {bytes : Nat → Byte} {st : State σ ι} (h : st.errnum ≠ .none) :
    gunzipLoop p R buf fuel at' len (bytes, st) = (bytes, st) := by
  cases fuel with
  | zero => rfl
  | succ fuel => simp only [gunzipLoop, h, and_false, if_false]

/-- The bytes of one window. -/
theorem AtWindow.slide {pos size : Nat} {st : State σ ι} (h : AtWindow p F off on s₀ (pos / wsize + 1) st)
    (hsize : pos % wsize + size ≤ wsize) :
    slice (p.slide st.gzip.inflate) (pos % wsize) size = slice (unpackedByte p (F.drop off) s₀) pos size := by
  obtain ⟨n, -, hfed⟩ := h.streams
  rw [Memory.slice_eq_iff]
  intro i hi
  simp only [wsize] at hsize
  have hdiv : (pos + i) / wsize = pos / wsize := by simp only [wsize]; omega
  have hmod : (pos + i) % wsize = pos % wsize + i := by simp only [wsize]; omega
  rw [unpackedByte, hdiv, hfed, hmod]

theorem AtWindow.copiedOut {k : Nat} {st : State σ ι} (h : AtWindow p F off on s₀ k st) (size : Nat) :
    AtWindow p F off on s₀ k (st.copiedOut size true) := by
  obtain ⟨n, hstreams, hfed⟩ := h.streams
  have hopen := hstreams.opened
  exact ⟨⟨n, ⟨⟨⟨hopen.measureKernel, hopen.compressedFile, hopen.filemax, hopen.stored.blocks, hopen.stored.driver⟩, hopen.errnum⟩,
    hstreams.performSha1, hstreams.offset, hstreams.taken, hstreams.filepos, hstreams.bufloc, hstreams.inbuf⟩, hfed⟩, h.savedFilepos⟩

/-- **The loop of `gunzip_read`** delivers what the data unpack to. -/
theorem gunzipLoop_copies (hp : p.Healthy) (hR : Fetches p R on) {buf : Dest} (fuel : Nat) :
    ∀ {at' len pos k : Nat} {bytes : Nat → Byte} {st : State σ ι}, AtWindow p F off on s₀ k st → st.gzip.filepos = pos →
      k ≤ pos / wsize + 1 → len ≤ fuel → (gunzipLoop p R buf fuel at' len (bytes, st)).2.faulted = false →
      ((∀ o n, buf.usable o n = true) ∨ (gunzipLoop p R buf fuel at' len (bytes, st)).2.errnum = .none) →
      Copies p F off on s₀ k pos len bytes at' (gunzipLoop p R buf fuel at' len (bytes, st)) := by
  induction fuel with
  | zero =>
    intro at' len pos k bytes st h hpos _ hlen _ _
    obtain rfl : len = 0 := by omega
    obtain ⟨n, -, hfed⟩ := h.streams
    rw [Copies, windowsAfter, if_pos rfl, hfed]
    exact ⟨h, hpos, by simp [gunzipLoop]⟩
  | succ fuel ih =>
    intro at' len pos k bytes st h hpos hle hlen hf husable
    by_cases hzero : len = 0
    · subst hzero
      obtain ⟨n, -, hfed⟩ := h.streams
      rw [Copies, windowsAfter, if_pos rfl, hfed]
      have hdone : gunzipLoop p R buf (fuel + 1) at' 0 (bytes, st) = (bytes, st) := by simp [gunzipLoop]
      rw [hdone]
      exact ⟨h, hpos, by simp⟩
    have hgo : 0 < len ∧ st.errnum = .none := ⟨Nat.pos_of_ne_zero hzero, h.errnum⟩
    simp only [gunzipLoop, if_pos hgo] at hf husable ⊢
    have hfw : (Disk.inflateTo p R st.windowsAhead st).faulted = false := ((hR.lasting (F := F) hp).gunzipLoop _ hf).1
    have hfuel : pos / wsize + 1 ≤ k + st.windowsAhead := by
      have hsaved := h.savedFilepos
      simp only [State.windowsAhead, hpos, hsaved, wsize] at hle ⊢
      omega
    have hwindows := h.inflateTo hp hR _ hpos hle hfuel hfw
    generalize Disk.inflateTo p R st.windowsAhead st = s at hf husable hwindows
    have hlast : pos / wsize + 1 ≤ windowsAfter k pos len := by
      simp only [windowsAfter, if_neg hzero, wsize]
      omega
    rw [Proceeds] at hwindows
    split at hwindows
    next _ _ hfed =>
      obtain ⟨hat, hpos'⟩ := hwindows
      have hsaved := hat.savedFilepos
      -- the stretch that the current window still holds
      obtain ⟨size, hsize, hpositive, hbound, hwithin⟩ : ∃ size, min (s.gzip.savedFilepos - s.gzip.filepos).toNat len = size ∧
          0 < size ∧ size ≤ len ∧ pos % wsize + size ≤ wsize := by
        refine ⟨_, rfl, ?_⟩
        simp only [hpos', hsaved, wsize]
        omega
      have hsrc : (s.gzip.filepos % wsize).toNat = pos % wsize := by rw [hpos']; simp only [wsize]; omega
      simp only [hsize, hsrc] at hf husable ⊢
      have hok : buf.usable at' size = true := by
        rcases husable with husable | hnone
        · exact husable _ _
        · by_contra hno
          have hwont : (s.copiedOut size (buf.usable at' size)).errnum ≠ .none := by simp [State.copiedOut, hno]
          rw [gunzipLoop_errnum fuel hwont] at hnone
          exact hwont hnone
      rw [hok] at hf husable ⊢
      rw [if_pos ⟨hat.errnum, rfl⟩] at hf husable ⊢
      have hpos'' : (s.copiedOut size true).gzip.filepos = (pos + size : Nat) := by simp [State.copiedOut, hpos']
      have hnext := ih (hat.copiedOut size) hpos'' (by simp only [wsize]; omega) (by omega) hf husable
      have hsame : windowsAfter (pos / wsize + 1) (pos + size) (len - size) = windowsAfter k pos len := by
        simp only [windowsAfter, if_neg hzero, wsize] at hwithin ⊢
        split <;> omega
      rw [Copies, hsame] at hnext
      rw [Copies]
      split at hnext
      next =>
        obtain ⟨hat', hend, hbytes⟩ := hnext
        refine ⟨hat', by rw [hend]; omega, ?_⟩
        have hlen' : (slice (p.slide s.gzip.inflate) (pos % wsize) size).length = size := Memory.slice_length _ _ _
        rw [hbytes, hat.slide hwithin]
        rw [hat.slide hwithin] at hlen'
        conv_rhs => rw [← Nat.add_sub_cancel' hbound, Memory.slice_add, Memory.store_append, hlen']
      next => exact hnext
      next => exact hnext
    next hfed =>
      rw [Copies, feedWindows_mono hfed (.inl rfl) hlast]
      have hstop (usable : Bool) (size : Nat) : (s.copiedOut size usable).errnum ≠ .none := by
        simp only [State.copiedOut]
        split
        · exact hwindows
        · simp
      dsimp only
      rw [gunzipLoop_errnum fuel (hstop _ _)]
      exact hstop _ _
    next hfed =>
      rw [Copies, feedWindows_mono hfed (.inr rfl) hlast]
      refine ((hR.lasting hp).gunzipLoop _ hf).2 ?_
      exact (hR.lasting hp).unpack s _ _ rfl hwindows

/-! ## Reads of a compressed file -/

/-- A compressed file, stored as `F`, is open; its data begin at byte `off`, and `k`
windows of them have been unpacked since the decompressor started from `s₀`. -/
structure Unpacking (p : Platform σ ι) (F : List Byte) (off : Nat) (on : Bool) (s₀ : ι) (k : Nat) (st : State σ ι) : Prop where
  compressedFile : st.compressedFile = true
  window : AtWindow p F off on s₀ k st.inside
  reaches : st.filemax ≤ st.fsmax

/-- A compressed file of which all has been read. -/
structure Drained (F : List Byte) (on : Bool) (st : State σ ι) : Prop where
  compressedFile : st.compressedFile = true
  ended : Ended F on st.inside
  reaches : st.filemax ≤ st.fsmax

/-- What a read of `len` bytes at `pos` comes to. -/
def Unpacks (p : Platform σ ι) (F : List Byte) (off : Nat) (on : Bool) (s₀ : ι) (k pos len : Nat) (buf : Dest)
    (r : Int × (Nat → Byte) × State σ ι) : Prop :=
  match feedWindows p (F.drop off) s₀ (windowsAfter k pos len) with
  | .window _ _ =>
    r.1 = len ∧ r.2.1 = store buf.bytes 0 (slice (unpackedByte p (F.drop off) s₀) pos len) ∧
      r.2.2.filepos = (pos + len : Nat) ∧ Unpacking p F off on s₀ (windowsAfter k pos len) r.2.2
  | .bad => r.2.2.errnum ≠ .none
  | .starved => Drained F on r.2.2

theorem Fetches.keeps (hR : Fetches p R on) : Keeps R := by
  cases hR with
  | outer => exact grubReadWith_keeps (grubReadWith_keeps noRead_keeps)
  | nested => exact grubReadWith_keeps noRead_keeps

theorem Unpacking.measureKernel {k : Nat} {st : State σ ι} (h : Unpacking p F off on s₀ k st) : st.measureKernel = false := by
  obtain ⟨n, hstreams, -⟩ := h.window.streams
  exact hstreams.opened.measureKernel

theorem Unpacking.errnum {k : Nat} {st : State σ ι} (h : Unpacking p F off on s₀ k st) : st.errnum = .none := h.window.errnum

theorem Unpacking.performSha1 {k : Nat} {st : State σ ι} (h : Unpacking p F off on s₀ k st) : st.performSha1 = on := by
  obtain ⟨n, hstreams, -⟩ := h.window.streams
  exact hstreams.performSha1

/-- What the decompressor works on. -/
structure Source (ι : Type) where
  gzip : Gzip ι
  blocks : Blocks
  blockFile : Bool
  mounted : Bool
  part : Nat → Byte
  file : File

def State.source (st : State σ ι) : Source ι := ⟨st.gzip, st.blocks, st.blockFile, st.mounted, st.part, st.file⟩

/-- The decompressor stays where it is, whatever else changes. -/
theorem Unpacking.of_source {k : Nat} {on' : Bool} {st s : State σ ι} (h : Unpacking p F off on s₀ k st)
    (hsource : s.source = st.source) (herr : s.errnum = .none) (hm : s.measureKernel = false) (hc : s.compressedFile = true)
    (hon : s.performSha1 = on') (hr : s.filemax ≤ s.fsmax) : Unpacking p F off on' s₀ k s := by
  obtain ⟨n, hstreams, hfed⟩ := h.window.streams
  have hopen := hstreams.opened
  have hgzip : s.gzip = st.gzip := congrArg Source.gzip hsource
  have hinbuf := congrArg Gzip.inbuf hgzip
  have hinflate := congrArg Gzip.inflate hgzip
  have hblocks : s.blocks = st.blocks := congrArg Source.blocks hsource
  have hlist : s.blockFile = st.blockFile := congrArg Source.blockFile hsource
  have hmounted : s.mounted = st.mounted := congrArg Source.mounted hsource
  have hpart : s.part = st.part := congrArg Source.part hsource
  have hfile : s.file = st.file := congrArg Source.file hsource
  have hraw : RawOpen s.inside F := by
    refine ⟨⟨hm, rfl, ?_, ⟨fun hb => ?_, fun hb => ?_⟩⟩, herr⟩
    · exact (congrArg Gzip.filemax hgzip).trans hopen.filemax
    · have hblocks' : s.inside.blocks = st.inside.blocks := hblocks
      have hpart' : s.inside.part = st.inside.part := hpart
      rw [hblocks', hpart']
      exact hopen.stored.blocks (hlist.symm.trans hb)
    · have hmounted' : s.inside.mounted = st.inside.mounted := hmounted
      have hfile' : s.inside.file = st.inside.file := hfile
      rw [hmounted', hfile']
      exact hopen.stored.driver (hlist.symm.trans hb)
  refine ⟨hc, ⟨⟨n, ⟨hraw, hon, ?_, hstreams.taken, ?_, ?_, ?_⟩, ?_⟩, ?_⟩, hr⟩
  · exact (congrArg Gzip.dataOffset hgzip).trans hstreams.offset
  · exact (congrArg Gzip.filepos hgzip).trans hstreams.filepos
  · exact fun hn => (congrArg Gzip.bufloc hgzip).trans (hstreams.bufloc hn)
  · intro hn j hj hlt
    exact (congrFun hinbuf j).trans (hstreams.inbuf hn j hj hlt)
  · have hinflate' : s.inside.gzip.inflate = st.inside.gzip.inflate := hinflate
    rw [hinflate']
    exact hfed
  · exact (congrArg Gzip.savedFilepos hgzip).trans h.window.savedFilepos

/-- The trailer has been read: nothing has been unpacked yet. -/
theorem RawOpen.unpackingStart {st : State σ ι} (h : RawOpen st F) (hoff : st.gzip.dataOffset = off) (hle : off ≤ F.length)
    (size : Int) : Unpacking p F off st.performSha1 (p.resetInflate st.gzip.inflate) 0 (st.unpacking p size) := by
  refine ⟨rfl, ⟨⟨0, ⟨⟨⟨h.measureKernel, rfl, h.filemax, h.stored.blocks, h.stored.driver⟩, h.errnum⟩, rfl, hoff, hle, ?_, ?_, ?_⟩,
    rfl⟩, ?_⟩, Int.le_refl _⟩
  · rw [rawPosition, if_pos rfl]
    exact hoff
  · exact fun hn => absurd hn (Nat.lt_irrefl 0)
  · exact fun hn => absurd hn (Nat.lt_irrefl 0)
  · rw [Nat.zero_mul]
    rfl

/-- Where a read at `pos` finds the decompressor, once `k` windows have been unpacked
from `s₀` on: where it was, or at the start again. -/
def windowAt (p : Platform σ ι) (s₀ inflate : ι) (k pos : Nat) : ι × Nat :=
  if pos + wsize < k * wsize then (p.resetInflate inflate, 0) else (s₀, k)

theorem windowAt_le (s₀ inflate : ι) (k pos : Nat) : (windowAt p s₀ inflate k pos).2 ≤ pos / wsize + 1 := by
  simp only [windowAt]
  split
  next => exact Nat.zero_le _
  next hback =>
    simp only [wsize] at hback ⊢
    omega

theorem Unpacking.entered {k pos : Nat} {st : State σ ι} (h : Unpacking p F off on s₀ k st) (hpos : st.filepos = pos) :
    (st.gunzipEntered p).gzip.filepos = pos ∧
      AtWindow p F off on (windowAt p s₀ st.gzip.inflate k pos).1 (windowAt p s₀ st.gzip.inflate k pos).2 (st.gunzipEntered p) := by
  have hsaved : st.inside.gzip.savedFilepos = (k * wsize : Nat) := h.window.savedFilepos
  have hown : st.inside.gzip.filepos = pos := hpos
  rw [State.gunzipEntered, windowAt, hown, hsaved]
  by_cases hback : pos + wsize < k * wsize
  · simp only [if_pos hback]
    rw [if_pos (by exact_mod_cast hback)]
    obtain ⟨n, hstreams, -⟩ := h.window.streams
    have hopen := hstreams.opened
    refine ⟨hown, ⟨0, ⟨⟨⟨hopen.measureKernel, hopen.compressedFile, hopen.filemax,
      hopen.stored.blocks, hopen.stored.driver⟩, hopen.errnum⟩, hstreams.performSha1, hstreams.offset, ?_, ?_, ?_, ?_⟩, rfl⟩, ?_⟩
    · have := hstreams.taken
      omega
    · rw [rawPosition, if_pos rfl]
      exact hstreams.offset
    · exact fun hn => absurd hn (Nat.lt_irrefl 0)
    · exact fun hn => absurd hn (Nat.lt_irrefl 0)
    · rw [Nat.zero_mul]
      rfl
  · simp only [if_neg hback]
    rw [if_neg (by exact_mod_cast hback)]
    exact ⟨hown, h.window⟩

/-- The end of `gunzip_read`. -/
theorem AtWindow.left {k : Nat} {st : State σ ι} (h : AtWindow p F off on s₀ k st) (hr : st.gzip.filemax ≤ st.gzip.fsmax) :
    Unpacking p F off on s₀ k st.gunzipLeft := by
  obtain ⟨n, hstreams, hfed⟩ := h.streams
  have hopen := hstreams.opened
  exact ⟨rfl, ⟨⟨n, ⟨⟨⟨hopen.measureKernel, rfl, hopen.filemax, hopen.stored.blocks, hopen.stored.driver⟩, hopen.errnum⟩,
    hstreams.performSha1, hstreams.offset, hstreams.taken, hstreams.filepos, hstreams.bufloc, hstreams.inbuf⟩, hfed⟩,
    h.savedFilepos⟩, hr⟩

theorem Ended.left {st : State σ ι} (h : Ended F on st) (hr : st.gzip.filemax ≤ st.gzip.fsmax) : Drained F on st.gunzipLeft :=
  ⟨rfl, ⟨⟨h.raw.measureKernel, rfl, h.raw.filemax, h.raw.stored.blocks, h.raw.stored.driver⟩, h.performSha1, h.filepos⟩, hr⟩

theorem Copies.unpacks {k pos len : Nat} {buf : Dest} {r : (Nat → Byte) × State σ ι}
    (h : Copies p F off on s₀ k pos len buf.bytes 0 r) (hr : r.2.gzip.filemax ≤ r.2.gzip.fsmax) :
    Unpacks p F off on s₀ k pos len buf (if r.2.errnum = .none then max (len : Int) 0 else 0, r.1, r.2.gunzipLeft) := by
  rw [Copies] at h
  rw [Unpacks]
  split at h
  next =>
    obtain ⟨hat, hend, hbytes⟩ := h
    refine ⟨?_, hbytes, hend, hat.left hr⟩
    rw [if_pos hat.errnum]
    omega
  next => exact h
  next => exact h.left hr

/-- **`gunzip_read`** delivers what the data unpack to, starting afresh where the window
lies behind. -/
theorem Unpacking.gunzipRead (hp : p.Healthy) (hR : Fetches p R on) {k pos len : Nat} {st : State σ ι} {buf : Dest}
    (h : Unpacking p F off on s₀ k st) (hpos : st.filepos = pos) (hf : (gunzipRead p R st buf len).2.2.faulted = false)
    (husable : (∀ o n, buf.usable o n = true) ∨ (gunzipRead p R st buf len).2.2.errnum = .none) :
    Unpacks p F off on (windowAt p s₀ st.gzip.inflate k pos).1 (windowAt p s₀ st.gzip.inflate k pos).2 pos len buf
      (gunzipRead p R st buf len) := by
  obtain ⟨hown, hat⟩ := h.entered hpos
  have hle := windowAt_le (p := p) s₀ st.gzip.inflate k pos
  have hkeeps := (gunzipLoop_keeps (p := p) hR.keeps buf len 0 len buf.bytes (st.gunzipEntered p)).trans (entered_settings st)
  have hmax := congrArg Settings.gzipFilemax hkeeps
  have hfs := congrArg Settings.gzipFsmax hkeeps
  have hreaches := h.reaches
  simp only [State.settings] at hmax hfs
  simp only [Disk.gunzipRead, Int.toNat_natCast] at hf husable ⊢
  exact (gunzipLoop_copies hp hR len hat hown hle (Nat.le_refl len) hf husable).unpacks (by omega)

theorem saneFilepos_start (filepos : Int) {filemax : Int} (h : 0 ≤ filemax) :
    saneFilepos filepos filemax = ((saneFilepos filepos filemax).toNat : Nat) ∧ (saneFilepos filepos filemax).toNat ≤ filemax.toNat := by
  simp only [saneFilepos]
  split <;> omega

theorem saneLen_count (st : State σ ι) (len : Int) (h : 0 ≤ st.filemax) :
    st.aimed.saneLen len = countAt st.filemax.toNat st.startOf len := by
  obtain ⟨hstart, hle⟩ := saneFilepos_start st.filepos h
  have haim : st.aimed.filepos = st.startOf := hstart
  have hmax : st.aimed.filemax = st.filemax := rfl
  have hle' : st.startOf ≤ st.filemax.toNat := hle
  rw [State.saneLen, haim, hmax, countAt]
  split_ifs <;> omega

/-- **A read of a compressed file**, once the skipped part of it has been dealt with. -/
theorem Unpacking.read_behind (hp : p.Healthy) (hR : Fetches p R on) {k : Nat} {st s : State σ ι} (buf : Dest) (len : Int)
    (hm : st.measureKernel = false) (hnonneg : 0 ≤ st.filemax) (hreaches : st.filemax ≤ st.fsmax)
    (hskip : measureSkipped R st.aimed = s) (h : Unpacking p F off on s₀ k s) (hpos : s.filepos = st.startOf)
    (hf : (grubReadWith p R st buf len).2.2.faulted = false)
    (husable : (∀ o n, buf.usable o n = true) ∨ (grubReadWith p R st buf len).2.2.errnum = .none) :
    Unpacks p F off on (windowAt p s₀ s.gzip.inflate k st.startOf).1 (windowAt p s₀ s.gzip.inflate k st.startOf).2 st.startOf
      (countAt st.filemax.toNat st.startOf len) buf (grubReadWith p R st buf len) := by
  obtain ⟨hstart, hle⟩ := saneFilepos_start st.filepos hnonneg
  have haim : st.aimed.filepos = st.startOf := hstart
  have hle' : st.startOf ≤ st.filemax.toNat := hle
  have hend := countAt_le hle' len
  have hread : grubReadWith p R st buf len = Disk.gunzipRead p R s buf (countAt st.filemax.toNat st.startOf len : Nat) := by
    simp only [grubReadWith, saneLen_count st len hnonneg, hskip]
    rw [if_neg (by simp [State.aimed, hm]), if_neg (by rw [haim]; simp only [State.aimed]; omega), fileRead,
      if_pos h.compressedFile]
  rw [hread] at hf husable ⊢
  exact h.gunzipRead hp hR hpos hf husable

end TrustedGrub.Disk
