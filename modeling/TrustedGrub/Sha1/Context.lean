import TrustedGrub.Sha1.Process

/-!
# `sha1_init`, `sha1_update`, `sha1_finish`

The streaming interface of `stage2/sha1.c`. `Represents ctx m` says that a context
holds exactly the message `m`: its two-word byte count, the chaining value of
the whole blocks of `m`, and in the buffer the rest. `update_represents` is the
step, `finish_represents` the end, and `chunks_digest` folds the step over a
message cut into chunks.
-/

namespace TrustedGrub.Sha1
open Fips180 (Byte Word Words)
open BlockHash (absorb rest)

/-- `sha1_context`. -/
structure Sha1Context where
  totalBytesHi : Word
  totalBytesLo : Word
  vector : Words
  buffer : Vector Byte 64

/-- A static context before its first use. -/
def Sha1Context.zeroed : Sha1Context := ⟨0, 0, ⟨0, 0, 0, 0, 0⟩, Vector.replicate 64 0⟩

/-- What `sha1_update` takes: the `t_U32` length counts the bytes. -/
structure Chunk where
  bytes : List Byte
  fits : bytes.length < 2 ^ 32

/-- `sha1_padding [64]`. -/
def sha1Padding : List Byte := 0x80#8 :: List.replicate 63 0#8

def sha1Init (ctx : Sha1Context) : Sha1Context :=
  { ctx with
    totalBytesLo := 0
    totalBytesHi := 0
    vector := ⟨0x67452301#32, 0xEFCDAB89#32, 0x98BADCFE#32, 0x10325476#32, 0xC3D2E1F0#32⟩ }

/-- The copy loops `ctx->buffer[left + i] = chunk_data[i]`. -/
def copyInto (buffer : Vector Byte 64) (left : Nat) (bytes : List Byte) : Vector Byte 64 :=
  Vector.ofFn fun i => if left ≤ i.val ∧ i.val < left + bytes.length then bytes.getD (i.val - left) 0 else buffer.get i

/-- `while (chunk_length >= 64)`: the vector after, and the data left. Each pass
drops a block, so the length of the data bounds the passes. -/
def wholeBlocks : Nat → Words → List Byte → Words × List Byte
  | 0, vector, chunkData => (vector, chunkData)
  | fuel + 1, vector, chunkData =>
    if 64 ≤ chunkData.length then wholeBlocks fuel (sha1Process vector (chunkData.take 64)) (chunkData.drop 64)
    else (vector, chunkData)

/-- `sha1_update`: the result and the context after. -/
def sha1Update (ctx : Sha1Context) (chunkData : List Byte) : Int × Sha1Context :=
  if chunkData.length < 1 then (-1, ctx)
  else
    let chunkLength := BitVec.ofNat 32 chunkData.length
    let left := (ctx.totalBytesLo &&& 0x3F#32).toNat
    let fill := 64 - left
    let totalBytesLo := ctx.totalBytesLo + chunkLength
    let totalBytesHi := if totalBytesLo < chunkLength then ctx.totalBytesHi + 1 else ctx.totalBytesHi
    -- the buffered bytes and the first of the chunk make a block
    let full := 0 < left ∧ fill ≤ chunkData.length
    let filled := copyInto ctx.buffer left (chunkData.take fill)
    let buffer := if full then filled else ctx.buffer
    let vector := if full then sha1Process ctx.vector filled.toList else ctx.vector
    let chunkData := if full then chunkData.drop fill else chunkData
    let left := if full then 0 else left
    let (vector, chunkData) := wholeBlocks chunkData.length vector chunkData
    let buffer := if 0 < chunkData.length then copyInto buffer left chunkData else buffer
    (0, ⟨totalBytesHi, totalBytesLo, vector, buffer⟩)

/-- `SPLIT_INTO_4_BYTES (w32, w8, w8_i)`: the four bytes stored. -/
def splitInto4Bytes (w32 : Word) : List Byte :=
  [(w32 >>> 24).setWidth 8, (w32 >>> 16).setWidth 8, (w32 >>> 8).setWidth 8, w32.setWidth 8]

/-- `sha1_finish`: the digest words and the context after. -/
def sha1Finish (ctx : Sha1Context) : Words × Sha1Context :=
  let high := (ctx.totalBytesLo >>> 29) ||| (ctx.totalBytesHi <<< 3)
  let low := ctx.totalBytesLo <<< 3
  let msglen := splitInto4Bytes high ++ splitInto4Bytes low
  let last := (ctx.totalBytesLo &&& 0x3F#32).toNat
  let padn := if last < 56 then 56 - last else 120 - last
  let ctx := (sha1Update ctx (sha1Padding.take padn)).2
  let ctx := (sha1Update ctx msglen).2
  (ctx.vector, ctx)

/-! ## What a context stands for -/

/-- The context has absorbed exactly the bytes of `m`. -/
structure Represents (ctx : Sha1Context) (m : List Byte) : Prop where
  total : ctx.totalBytesHi.toNat * 2 ^ 32 + ctx.totalBytesLo.toNat = m.length % 2 ^ 64
  vector : ctx.vector = absorb 64 Fips180.compress Fips180.initial m
  buffer : ctx.buffer.toList.take (m.length % 64) = rest 64 m

theorem init_represents (ctx : Sha1Context) : Represents (sha1Init ctx) [] where
  total := by simp [sha1Init]
  vector := by rw [BlockHash.absorb_of_lt (by simp)]; rfl
  buffer := by rw [BlockHash.rest_nil]; simp

theorem low_six_bits (x : Word) : (x &&& 0x3F#32).toNat = x.toNat % 64 := by
  rw [BitVec.toNat_and, show (0x3F#32 : Word).toNat = 2 ^ 6 - 1 by decide, Nat.and_two_pow_sub_one_eq_mod]

/-- The low word of the count locates the end of the buffered bytes. -/
theorem Represents.left {ctx : Sha1Context} {m : List Byte} (h : Represents ctx m) :
    (ctx.totalBytesLo &&& 0x3F#32).toNat = m.length % 64 := by
  rw [low_six_bits]
  have := h.total
  omega

theorem wholeBlocks_eq (fuel : Nat) : ∀ (vector : Words) (data : List Byte), data.length ≤ fuel →
    wholeBlocks fuel vector data = (absorb 64 Fips180.compress vector data, rest 64 data) := by
  induction fuel with
  | zero =>
    intro vector data h
    have : data = [] := List.eq_nil_of_length_eq_zero (by omega)
    subst this; rfl
  | succ fuel ih =>
    intro vector data h
    rw [wholeBlocks]
    split
    next hge =>
      obtain ⟨b, t, rfl, hb, ht⟩ := BlockHash.split_block hge
      rw [List.take_left' hb, List.drop_left' hb, process_eq_compress, ih _ _ (by omega),
        BlockHash.absorb_block (by decide) hb, BlockHash.rest_block (by decide) hb]
    next hlt =>
      rw [BlockHash.absorb_of_lt (by omega), BlockHash.rest_of_lt (by omega)]

/-- The copy puts the bytes behind the first `left` of the buffer. -/
theorem copyInto_take (buffer : Vector Byte 64) {left : Nat} {bytes : List Byte} (h : left + bytes.length ≤ 64) :
    (copyInto buffer left bytes).toList.take (left + bytes.length) = buffer.toList.take left ++ bytes := by
  apply List.ext_getElem?
  intro i
  by_cases hlt : i < left + bytes.length
  · by_cases hl : i < left
    · rw [List.getElem?_take_of_lt hlt, List.getElem?_append_left (by simp; omega), List.getElem?_take_of_lt hl]
      simp [copyInto, show ¬ left ≤ i by omega, show i < 64 by omega, Vector.get]
    · rw [List.getElem?_take_of_lt hlt, List.getElem?_append_right (by simp; omega)]
      simp [copyInto, hlt, show left ≤ i by omega, show min left 64 = left by omega, show i < 64 by omega,
        show i - left < bytes.length by omega]
  · rw [List.getElem?_eq_none (by simp; omega), List.getElem?_eq_none (by simp; omega)]

/-- The last copy of an update is skipped when nothing is left. -/
theorem tail_copy (buffer : Vector Byte 64) {left : Nat} {tail : List Byte} (h : left + tail.length ≤ 64) :
    (if 0 < tail.length then copyInto buffer left tail else buffer).toList.take (left + tail.length) =
      buffer.toList.take left ++ tail := by
  split
  next => exact copyInto_take buffer h
  next hempty =>
    have : tail = [] := List.eq_nil_of_length_eq_zero (by omega)
    simp [this]

theorem two_word_add (lo hi n : Nat) :
    (hi + (lo + n) / 2 ^ 32) % 2 ^ 32 * 2 ^ 32 + (lo + n) % 2 ^ 32 = (hi * 2 ^ 32 + lo + n) % 2 ^ 64 := by
  omega

/-- The two-word count: the low word wrapped exactly when it is below the summand. -/
theorem count_carry (hi lo : Word) {n : Nat} (hn : n < 2 ^ 32) :
    (if lo + BitVec.ofNat 32 n < BitVec.ofNat 32 n then hi + 1 else hi).toNat * 2 ^ 32 +
      (lo + BitVec.ofNat 32 n).toNat = (hi.toNat * 2 ^ 32 + lo.toNat + n) % 2 ^ 64 := by
  have hlo := lo.isLt
  have hword : (BitVec.ofNat 32 n).toNat = n := by rw [BitVec.toNat_ofNat, Nat.mod_eq_of_lt hn]
  have hsum : (lo + BitVec.ofNat 32 n).toNat = (lo.toNat + n) % 2 ^ 32 := by rw [BitVec.toNat_add, hword]
  rw [← two_word_add lo.toNat hi.toNat n, ← hsum]
  congr 2
  simp only [BitVec.lt_def, hsum, hword]
  split
  next hc => rw [BitVec.toNat_add, show (1 : Word).toNat = (lo.toNat + n) / 2 ^ 32 by simp; omega]
  next hc => rw [show (lo.toNat + n) / 2 ^ 32 = 0 by omega, Nat.add_zero, Nat.mod_eq_of_lt hi.isLt]

/-- The bytes a context buffers, followed by a chunk that completes them, make a
block and the rest of the chunk. -/
theorem completed_block {ctx : Sha1Context} {m chunk : List Byte} (h : Represents ctx m)
    (hfill : 64 - m.length % 64 ≤ chunk.length) :
    (copyInto ctx.buffer (m.length % 64) (chunk.take (64 - m.length % 64))).toList =
      rest 64 m ++ chunk.take (64 - m.length % 64) := by
  have hlen : m.length % 64 + (chunk.take (64 - m.length % 64)).length = 64 := by
    rw [List.length_take]; omega
  have htake := copyInto_take ctx.buffer (Nat.le_of_eq hlen)
  rw [hlen, h.buffer] at htake
  rw [← htake]
  exact (List.take_of_length_le (by simp)).symm

/-- **The step**: an update appends its chunk to what the context stands for. -/
theorem update_represents {ctx : Sha1Context} {m : List Byte} (h : Represents ctx m) {chunk : List Byte}
    (hc : chunk.length < 2 ^ 32) : Represents (sha1Update ctx chunk).2 (m ++ chunk) := by
  by_cases hempty : chunk.length < 1
  · have : chunk = [] := List.eq_nil_of_length_eq_zero (by omega)
    subst this
    simpa only [sha1Update, List.length_nil, Nat.zero_lt_one, if_true, List.append_nil] using h
  have hrest : (rest 64 m).length = m.length % 64 := BlockHash.rest_length m
  have hbuf : ctx.buffer.toList.take (m.length % 64) = rest 64 m := h.buffer
  have hend : ((rest 64 m ++ chunk).length) % 64 = (m ++ chunk).length % 64 := by
    rw [List.length_append, List.length_append, hrest, Nat.mod_add_mod]
  simp only [sha1Update, if_neg hempty, h.left, wholeBlocks_eq _ _ _ (Nat.le_refl _)]
  by_cases full : 0 < m.length % 64 ∧ 64 - m.length % 64 ≤ chunk.length
  · -- the buffered bytes are completed to a block, and the buffer starts afresh
    have hblock := completed_block h full.2
    have hsplit : rest 64 m ++ chunk =
        (rest 64 m ++ chunk.take (64 - m.length % 64)) ++ chunk.drop (64 - m.length % 64) := by
      rw [List.append_assoc, List.take_append_drop]
    have hb : (rest 64 m ++ chunk.take (64 - m.length % 64)).length = 64 := by
      rw [List.length_append, hrest, List.length_take]; omega
    have hr : rest 64 (rest 64 m ++ chunk) = rest 64 (chunk.drop (64 - m.length % 64)) := by
      rw [hsplit, BlockHash.rest_block (by decide) hb]
    simp only [if_pos full, hblock]
    constructor
    · rw [count_carry _ _ hc, h.total, List.length_append, Nat.mod_add_mod]
    · rw [BlockHash.absorb_append (by decide), hsplit, BlockHash.absorb_block (by decide) hb, h.vector,
        process_eq_compress]
    · have hl : (m ++ chunk).length % 64 = 0 + (rest 64 (chunk.drop (64 - m.length % 64))).length := by
        rw [← hend, ← BlockHash.rest_length, hr, Nat.zero_add]
      rw [BlockHash.rest_append (by decide), hr, hl, tail_copy _ (by rw [← hl]; omega), List.take_zero,
        List.nil_append]
  · -- nothing is buffered, or the chunk does not complete the block
    have hkeep : absorb 64 Fips180.compress ctx.vector (rest 64 m ++ chunk) = absorb 64 Fips180.compress ctx.vector chunk ∧
        rest 64 (rest 64 m ++ chunk) = rest 64 m ++ rest 64 chunk := by
      by_cases hz : m.length % 64 = 0
      · have : rest 64 m = [] := List.eq_nil_of_length_eq_zero (by omega)
        simp only [this, List.nil_append, and_self]
      · have hshort : chunk.length < 64 - m.length % 64 := by omega
        have hlt : (rest 64 m ++ chunk).length < 64 := by rw [List.length_append]; omega
        have hlt' : chunk.length < 64 := by omega
        rw [BlockHash.absorb_of_lt hlt, BlockHash.rest_of_lt hlt, BlockHash.absorb_of_lt hlt', BlockHash.rest_of_lt hlt']
        exact ⟨rfl, rfl⟩
    simp only [if_neg full]
    constructor
    · rw [count_carry _ _ hc, h.total, List.length_append, Nat.mod_add_mod]
    · rw [BlockHash.absorb_append (by decide), ← h.vector, hkeep.1]
    · have hl : (m ++ chunk).length % 64 = m.length % 64 + (rest 64 chunk).length := by
        rw [← hend, ← BlockHash.rest_length, hkeep.2, List.length_append, hrest]
      rw [BlockHash.rest_append (by decide), hkeep.2, hl, tail_copy _ (by rw [← hl]; omega), hbuf]

/-! ## The end -/

/-- A byte of a word as the standard's shift of the whole number. -/
theorem split_byte (x : Word) (n k : Nat) (h : n % 2 ^ 8 = x.toNat / 2 ^ k % 2 ^ 8) :
    (x >>> k).setWidth 8 = BitVec.ofNat 8 n := by
  apply BitVec.eq_of_toNat_eq
  rw [BitVec.toNat_setWidth, BitVec.toNat_ushiftRight, Nat.shiftRight_eq_div_pow, BitVec.toNat_ofNat, h]

/-- Eight bytes, most significant first, of a count held in two words. -/
theorem length_bytes (high low : Word) :
    splitInto4Bytes high ++ splitInto4Bytes low = Fips180.lengthBytes (high.toNat * 2 ^ 32 + low.toNat) := by
  have hlow := low.isLt
  have hbyte (x : Word) : x.setWidth 8 = (x >>> 0).setWidth 8 := by simp
  simp only [splitInto4Bytes, hbyte high, hbyte low, Fips180.lengthBytes, List.range_succ, List.range_zero,
    List.nil_append, List.cons_append, List.map_cons, List.map_nil, Nat.shiftRight_eq_div_pow]
  simp only [List.cons.injEq, and_true]
  refine ⟨split_byte _ _ _ ?_, split_byte _ _ _ ?_, split_byte _ _ _ ?_, split_byte _ _ _ ?_, split_byte _ _ _ ?_,
    split_byte _ _ _ ?_, split_byte _ _ _ ?_, split_byte _ _ _ ?_⟩ <;> omega

/-- The bit length, from the two words of the byte count. -/
theorem bit_length {hi lo : Word} {n : Nat} (h : hi.toNat * 2 ^ 32 + lo.toNat = n) (hn : n < 2 ^ 61) :
    ((lo >>> 29) ||| (hi <<< 3)).toNat * 2 ^ 32 + (lo <<< 3).toNat = 8 * n := by
  have hhi : hi.toNat < 2 ^ 29 := by omega
  have hshift : (hi <<< 3).toNat = 2 ^ 3 * hi.toNat := by
    rw [BitVec.toNat_shiftLeft, Nat.shiftLeft_eq, Nat.mod_eq_of_lt (by omega), Nat.mul_comm]
  have htop : (lo >>> 29).toNat = lo.toNat / 2 ^ 29 := by
    rw [BitVec.toNat_ushiftRight, Nat.shiftRight_eq_div_pow]
  have hor : ((lo >>> 29) ||| (hi <<< 3)).toNat = 2 ^ 3 * hi.toNat + lo.toNat / 2 ^ 29 := by
    rw [BitVec.toNat_or, hshift, htop, Nat.or_comm, Nat.two_pow_add_eq_or_of_lt (by omega)]
  have hlow : (lo <<< 3).toNat = lo.toNat * 8 % 2 ^ 32 := by
    rw [BitVec.toNat_shiftLeft, Nat.shiftLeft_eq]
  have hsplit : lo.toNat * 8 % 2 ^ 32 + 2 ^ 32 * (lo.toNat / 2 ^ 29) = lo.toNat * 8 := by omega
  rw [hor, hlow, ← h]
  calc (2 ^ 3 * hi.toNat + lo.toNat / 2 ^ 29) * 2 ^ 32 + lo.toNat * 8 % 2 ^ 32
      = 8 * (hi.toNat * 2 ^ 32) + (lo.toNat * 8 % 2 ^ 32 + 2 ^ 32 * (lo.toNat / 2 ^ 29)) := by ring
    _ = 8 * (hi.toNat * 2 ^ 32 + lo.toNat) := by rw [hsplit]; ring

/-- The padding the program appends to a message of `n` bytes is the standard's. -/
theorem padding_eq (n : Nat) :
    sha1Padding.take (if n % 64 < 56 then 56 - n % 64 else 120 - n % 64) =
      0x80#8 :: List.replicate ((119 - n % 64) % 64) 0#8 := by
  have hpadn : (if n % 64 < 56 then 56 - n % 64 else 120 - n % 64) = (119 - n % 64) % 64 + 1 := by split <;> omega
  rw [hpadn, sha1Padding, List.take_succ_cons, List.take_replicate]
  congr 2
  omega

/-- **The end**: finishing a context yields the digest of what it stands for. -/
theorem finish_represents {ctx : Sha1Context} {m : List Byte} (h : Represents ctx m) (hm : m.length < 2 ^ 61) :
    (sha1Finish ctx).1 = Fips180.sha1 m := by
  have hbits := bit_length (by rw [h.total, Nat.mod_eq_of_lt (by omega)]) hm
  have hpad := @update_represents ctx m h (0x80#8 :: List.replicate ((119 - m.length % 64) % 64) 0#8)
    (by simp; omega)
  have hlen := @update_represents _ _ hpad (Fips180.lengthBytes (8 * m.length))
    (by simp [Fips180.lengthBytes])
  simp only [sha1Finish, h.left, padding_eq, length_bytes, hbits]
  exact hlen.vector

/-- Feeding the chunks one after another. -/
def updates (ctx : Sha1Context) (chunks : List Chunk) : Sha1Context :=
  chunks.foldl (fun ctx chunk => (sha1Update ctx chunk.bytes).2) ctx

/-- The run: after the chunks the context stands for their concatenation. -/
theorem updates_represents {ctx : Sha1Context} {m : List Byte} (h : Represents ctx m) (chunks : List Chunk) :
    Represents (updates ctx chunks) (m ++ chunks.flatMap Chunk.bytes) := by
  induction chunks generalizing ctx m with
  | nil => simpa [updates] using h
  | cons chunk chunks ih =>
    have := ih (update_represents h chunk.fits)
    rwa [List.flatMap_cons, ← List.append_assoc]

/-- What a context has behind the end of its bytes does not reach the digest. -/
theorem Represents.finish_eq {ctx ctx' : Sha1Context} {m : List Byte} (h : Represents ctx m) (h' : Represents ctx' m) :
    (sha1Finish ctx).1 = (sha1Finish ctx').1 := by
  have htotal := h.total.trans h'.total.symm
  have hlo : ctx.totalBytesLo = ctx'.totalBytesLo := BitVec.eq_of_toNat_eq (by omega)
  have hhi : ctx.totalBytesHi = ctx'.totalBytesHi := BitVec.eq_of_toNat_eq (by omega)
  have hshort : (0x80#8 :: List.replicate ((119 - m.length % 64) % 64) 0#8).length < 2 ^ 32 := by
    rw [List.length_cons, List.length_replicate]
    omega
  have hlength (x y : Word) : (splitInto4Bytes x ++ splitInto4Bytes y).length < 2 ^ 32 := by
    rw [List.length_append]
    exact Nat.lt_of_le_of_lt (Nat.le_refl 8) (by decide)
  have hend := update_represents (update_represents h hshort)
    (hlength ((ctx.totalBytesLo >>> 29) ||| (ctx.totalBytesHi <<< 3)) (ctx.totalBytesLo <<< 3))
  have hend' := update_represents (update_represents h' hshort)
    (hlength ((ctx.totalBytesLo >>> 29) ||| (ctx.totalBytesHi <<< 3)) (ctx.totalBytesLo <<< 3))
  simp only [sha1Finish, h.left, padding_eq, ← hlo, ← hhi]
  exact hend.vector.trans hend'.vector.symm

/-- **Chunking**: however a message of fewer than `2 ^ 61` bytes is cut, hashing
the chunks in turn gives the standard's digest of the whole. -/
theorem chunks_digest (ctx : Sha1Context) (chunks : List Chunk)
    (h : (chunks.flatMap Chunk.bytes).length < 2 ^ 61) :
    (sha1Finish (updates (sha1Init ctx) chunks)).1 = Fips180.sha1 (chunks.flatMap Chunk.bytes) :=
  finish_represents (updates_represents (init_represents ctx) chunks) h

theorem chunks_digest_abc :
    (sha1Finish (updates (sha1Init .zeroed)
      [⟨[0x61#8, 0x62#8], by decide⟩, ⟨[], by decide⟩, ⟨[0x63#8], by decide⟩])).1 =
      Fips180.sha1 [0x61#8, 0x62#8, 0x63#8] :=
  chunks_digest .zeroed [⟨[0x61#8, 0x62#8], by decide⟩, ⟨[], by decide⟩, ⟨[0x63#8], by decide⟩] (by decide)

end TrustedGrub.Sha1
