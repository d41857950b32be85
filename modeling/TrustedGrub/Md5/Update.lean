import TrustedGrub.CharIo.Memcheck
import TrustedGrub.Md5.Digest
import TrustedGrub.Sha1.Context

/-!
# `md5_init`, `md5_update`, `md5_final`

The statics of `stage2/md5.c` and its streaming interface. `memcpy` and `memset` are `grub_memmove` and `grub_memset` there,
which ask `memcheck` first. `Represents ctx m`: the statics hold exactly the message `m`. What the buffer holds from an
earlier message stays behind its end.
-/

namespace TrustedGrub.Md5
open Fips180 (Byte Word)
open BlockHash (absorb rest)
open Sha1 (copyInto copyInto_take low_six_bits)

/-- Where the statics `state` and `buffer` and the array `alt_result` lie: below the buffer of the file systems. -/
structure Places where
  state : Nat
  buffer : Nat
  altResult : Nat
  first : 0x1000 ≤ state ∧ 0x1000 ≤ buffer ∧ 0x1000 ≤ altResult
  last : state + 16 ≤ 0x68000 ∧ buffer + 64 ≤ 0x68000 ∧ altResult + 16 ≤ 0x68000

/-- The statics, the array `alt_result` of `md5_password`, and what `memcheck` goes by. -/
structure Context where
  state : Words
  length : Word
  buffer : Vector Byte 64
  altResult : Words
  memory : CharIo.Memory
  places : Places

/-- The statics before their first use, with 640 kilobytes of memory. -/
def Context.zeroed : Context :=
  ⟨⟨0, 0, 0, 0⟩, 0, Vector.replicate 64 0, ⟨0, 0, 0, 0⟩, ⟨.none, 640, 64512⟩, ⟨0x60000, 0x60040, 0x67F00, by decide, by decide⟩⟩

def Context.memcheck (ctx : Context) (addr : Nat) (len : Word) : Bool × Context :=
  let (ok, memory) := CharIo.memcheck ctx.memory (.ofNat 32 addr) len
  (ok, { ctx with memory })

/-- A copy to `buffer + i`. -/
def Context.copyToBuffer (ctx : Context) (i : Nat) (bytes : List Byte) : Context :=
  let (ok, ctx) := ctx.memcheck (ctx.places.buffer + i) (.ofNat 32 bytes.length)
  if ok then { ctx with buffer := copyInto ctx.buffer i bytes } else ctx

def md5Init (ctx : Context) : Context :=
  let (ok, ctx) := ctx.memcheck ctx.places.state 16
  { ctx with state := if ok then initstate else ctx.state, length := 0 }

/-- `while (inputlen >= 64)`: the state after, and the input left. Each pass drops a block, so the length of the input
bounds the passes. -/
def wholeBlocks : Nat → Words → List Byte → Words × List Byte
  | 0, state, input => (state, input)
  | fuel + 1, state, input =>
    if 64 ≤ input.length then wholeBlocks fuel (md5Transform state (input.take 64)) (input.drop 64) else (state, input)

def md5Update (ctx : Context) (input : List Byte) : Context :=
  let buflen := (ctx.length &&& 63#32).toNat
  let ctx := { ctx with length := ctx.length + BitVec.ofNat 32 input.length }
  if buflen + input.length < 64 then ctx.copyToBuffer buflen input
  else
    let ctx := ctx.copyToBuffer buflen (input.take (64 - buflen))
    let (state, left) := wholeBlocks input.length (md5Transform ctx.state ctx.buffer.toList) (input.drop (64 - buflen))
    { ctx with state }.copyToBuffer 0 left

/-- `md5_final`: the digest is read from `state`. -/
def md5Final (ctx : Context) : Context :=
  let buflen := (ctx.length &&& 63#32).toNat + 1
  let ctx := { ctx with buffer := copyInto ctx.buffer (buflen - 1) [0x80#8] }
  let ctx := ctx.copyToBuffer buflen (List.replicate (64 - buflen) 0#8)
  let ctx := if 56 < buflen then
      { ctx with state := md5Transform ctx.state ctx.buffer.toList }.copyToBuffer 0 (List.replicate 64 0#8)
    else ctx
  let buffer := copyInto ctx.buffer 56 (wordBytes (8 * ctx.length))
  let buffer := copyInto buffer 60 (wordBytes 0)
  { ctx with state := md5Transform ctx.state buffer.toList, buffer }

/-! ## What `memcheck` answers -/

/-- No error is pending, and the statics may be written. -/
structure Places.Clear (places : Places) (memory : CharIo.Memory) : Prop where
  errnum : memory.errnum = .none
  state : CharIo.wontFit memory (.ofNat 32 places.state) 16 = false
  buffer : CharIo.wontFit memory (.ofNat 32 places.buffer) 64 = false

abbrev Context.Clear (ctx : Context) : Prop := ctx.places.Clear ctx.memory

variable {ctx : Context} {m : List Byte}

theorem memcheck_fits (herr : ctx.memory.errnum = .none) {addr : Nat} {len : Word}
    (h : CharIo.wontFit ctx.memory (.ofNat 32 addr) len = false) : ctx.memcheck addr len = (true, ctx) := by
  unfold Context.memcheck CharIo.memcheck
  rw [h]
  exact Prod.ext (decide_eq_true herr) rfl

/-- A part of a range may be written when all of it may. -/
theorem wontFit_part {memory : CharIo.Memory} {a n i k : Nat} (h : CharIo.wontFit memory (.ofNat 32 a) (.ofNat 32 n) = false)
    (hfirst : 0x1000 ≤ a) (hlast : a + n ≤ 0x100000) (hin : i + k ≤ n) :
    CharIo.wontFit memory (.ofNat 32 (a + i)) (.ofNat 32 k) = false := by
  rw [← Bool.not_eq_true, CharIo.wontFit_iff, BitVec.toNat_ofNat, BitVec.toNat_ofNat] at h ⊢
  omega

theorem copyToBuffer_eq (h : ctx.Clear) {i : Nat} {bytes : List Byte} (hfits : i + bytes.length ≤ 64) :
    ctx.copyToBuffer i bytes = { ctx with buffer := copyInto ctx.buffer i bytes } := by
  have hlast := ctx.places.last
  have hpart : CharIo.wontFit ctx.memory (.ofNat 32 (ctx.places.buffer + i)) (.ofNat 32 bytes.length) = false :=
    wontFit_part (n := 64) h.buffer ctx.places.first.2.1 (by omega) hfits
  unfold Context.copyToBuffer
  rw [memcheck_fits h.errnum hpart]
  rfl

/-! ## Messages -/

variable {places : Places} {memory : CharIo.Memory}

/-- The context has absorbed exactly the bytes of `m`, and `memcheck` answers what it did before. -/
structure Represents (places : Places) (memory : CharIo.Memory) (ctx : Context) (m : List Byte) : Prop where
  answers : ctx.memory = memory
  place : ctx.places = places
  clear : places.Clear memory
  length : ctx.length.toNat = m.length % 2 ^ 32
  state : ctx.state = absorb 64 md5Transform initstate m
  buffer : ctx.buffer.toList.take (m.length % 64) = rest 64 m

theorem init_eq (h : ctx.Clear) : md5Init ctx = { ctx with state := initstate, length := 0 } := by
  unfold md5Init
  rw [memcheck_fits h.errnum h.state]
  rfl

theorem init_represents (h : ctx.Clear) : Represents ctx.places ctx.memory (md5Init ctx) [] := by
  rw [init_eq h]
  exact ⟨rfl, rfl, h, rfl, (BlockHash.absorb_of_lt (by decide)).symm, BlockHash.rest_nil.symm⟩

theorem Represents.accepted (h : Represents places memory ctx m) : ctx.Clear := by
  have hclear := h.clear
  rwa [← h.answers, ← h.place] at hclear

/-- The count locates the end of the buffered bytes. -/
theorem Represents.buflen (h : Represents places memory ctx m) : (ctx.length &&& 63#32).toNat = m.length % 64 := by
  rw [low_six_bits]
  have := h.length
  omega

theorem wholeBlocks_eq (fuel : Nat) : ∀ (state : Words) (input : List Byte), input.length ≤ fuel →
    wholeBlocks fuel state input = (absorb 64 md5Transform state input, rest 64 input) := by
  induction fuel with
  | zero =>
    intro state input h
    obtain rfl := List.eq_nil_of_length_eq_zero (Nat.le_zero.1 h)
    rfl
  | succ fuel ih =>
    intro state input h
    rw [wholeBlocks]
    split
    next hge =>
      obtain ⟨b, t, rfl, hb, ht⟩ := BlockHash.split_block hge
      rw [List.take_left' hb, List.drop_left' hb, ih _ _ (by omega), BlockHash.absorb_block (by decide) hb,
        BlockHash.rest_block (by decide) hb]
    next hlt => rw [BlockHash.absorb_of_lt (by omega), BlockHash.rest_of_lt (by omega)]

/-- A copy behind what is buffered. -/
theorem buffered_copy {buffer : Vector Byte 64} {t : List Byte} (h : buffer.toList.take t.length = t) (bytes : List Byte)
    (hfits : t.length + bytes.length ≤ 64) :
    (copyInto buffer t.length bytes).toList.take (t ++ bytes).length = t ++ bytes := by
  rw [List.length_append, copyInto_take buffer hfits, h]

/-- A buffer that holds sixty-four bytes is these. -/
theorem whole_buffer {buffer : Vector Byte 64} {t : List Byte} (h : buffer.toList.take t.length = t) (hlen : t.length = 64) :
    buffer.toList = t := by
  rw [hlen, List.take_of_length_le (Nat.le_of_eq buffer.length_toList)] at h
  exact h

/-- **The step**: an update appends its input to what the context stands for. -/
theorem update_represents (h : Represents places memory ctx m) (input : List Byte) :
    Represents places memory (md5Update ctx input) (m ++ input) := by
  have hrest : (rest 64 m).length = m.length % 64 := BlockHash.rest_length m
  have hlength : (ctx.length + BitVec.ofNat 32 input.length).toNat = (m ++ input).length % 2 ^ 32 := by
    rw [BitVec.toNat_add, BitVec.toNat_ofNat, h.length, List.length_append, ← Nat.add_mod]
  have hbuffer : ctx.buffer.toList.take (rest 64 m).length = rest 64 m := by
    rw [hrest]
    exact h.buffer
  rw [md5Update, h.buflen, ← hrest]
  dsimp only
  split
  next hlt =>
    have hshort : (rest 64 m ++ input).length < 64 := by
      rw [List.length_append]
      exact hlt
    have hend : (m ++ input).length % 64 = (rest 64 m ++ input).length := by
      rw [← BlockHash.rest_length, BlockHash.rest_append (by decide), BlockHash.rest_of_lt hshort]
    rw [copyToBuffer_eq ?_ (Nat.le_of_lt hlt)]
    · refine ⟨h.answers, h.place, h.clear, hlength, ?_, ?_⟩
      · rw [BlockHash.absorb_append (by decide), ← h.state, BlockHash.absorb_of_lt hshort]
      · rw [hend, BlockHash.rest_append (by decide), BlockHash.rest_of_lt hshort]
        exact buffered_copy hbuffer input (Nat.le_of_lt hlt)
    · exact h.accepted
  next hge =>
    have hfill : (input.take (64 - (rest 64 m).length)).length = 64 - (rest 64 m).length := by
      rw [List.length_take]
      omega
    have hblock : (rest 64 m ++ input.take (64 - (rest 64 m).length)).length = 64 := by
      rw [List.length_append, hfill]
      omega
    have hsplit : rest 64 m ++ input = (rest 64 m ++ input.take (64 - (rest 64 m).length)) ++ input.drop (64 - (rest 64 m).length) := by
      rw [List.append_assoc, List.take_append_drop]
    have hcopy := whole_buffer (buffered_copy hbuffer (input.take (64 - (rest 64 m).length)) (by omega)) hblock
    have hleft : rest 64 (m ++ input) = rest 64 (input.drop (64 - (rest 64 m).length)) := by
      rw [BlockHash.rest_append (by decide), hsplit, BlockHash.rest_block (by decide) hblock]
    have hend : (m ++ input).length % 64 = 0 + (rest 64 (input.drop (64 - (rest 64 m).length))).length := by
      rw [← BlockHash.rest_length, hleft, Nat.zero_add]
    have hroom : 0 + (rest 64 (input.drop (64 - (rest 64 m).length))).length ≤ 64 := by
      rw [← hend]
      exact Nat.le_of_lt (Nat.mod_lt _ (by decide))
    have hin : (rest 64 m).length + (input.take (64 - (rest 64 m).length)).length ≤ 64 := by omega
    rw [copyToBuffer_eq ?_ hin]
    · dsimp only
      rw [hcopy, wholeBlocks_eq _ _ _ (by rw [List.length_drop]; exact Nat.sub_le _ _)]
      dsimp only
      rw [copyToBuffer_eq ?_ hroom]
      · refine ⟨h.answers, h.place, h.clear, hlength, ?_, ?_⟩
        · rw [BlockHash.absorb_append (by decide), ← h.state, hsplit, BlockHash.absorb_block (by decide) hblock]
        · rw [hleft, hend]
          exact copyInto_take _ hroom
      · exact h.accepted
    · exact h.accepted

/-! ## The end -/

/-- The word that `md5_final` stores is the low one of the length in bits. -/
theorem Represents.lengthWord (h : Represents places memory ctx m) : (8 * ctx.length : Word) = BitVec.ofNat 32 (8 * m.length) := by
  have hlength := h.length
  apply BitVec.eq_of_toNat_eq
  rw [BitVec.toNat_mul, BitVec.toNat_ofNat, hlength]
  show 8 * (m.length % 2 ^ 32) % 2 ^ 32 = 8 * m.length % 2 ^ 32
  omega

/-- The last two copies into a buffer that is zero up to them. -/
theorem last_block {buffer : Vector Byte 64} {t : List Byte} (h : buffer.toList.take t.length = t) (hlen : t.length = 56) (w w' : Word) :
    (copyInto (copyInto buffer 56 (wordBytes w)) 60 (wordBytes w')).toList = t ++ (wordBytes w ++ wordBytes w') := by
  have hfirst := buffered_copy h (wordBytes w) (by rw [hlen]; exact Nat.le_of_ble_eq_true rfl)
  have hlength : (t ++ wordBytes w).length = 60 := by
    rw [List.length_append, hlen]
    rfl
  have hsecond := buffered_copy hfirst (wordBytes w')
    (by rw [hlength]; exact Nat.le_refl 64)
  rw [hlength, hlen] at hsecond
  rw [← List.append_assoc]
  apply whole_buffer hsecond
  rw [List.length_append, hlength]
  rfl

/-- What `md5_final` makes of a message: the high word of the length in bits is left zero. -/
def wrappedDigest (m : List Byte) : Words :=
  absorb 64 md5Transform initstate
    (m ++ (0x80#8 :: List.replicate ((119 - m.length % 64) % 64) 0#8 ++ (wordBytes (BitVec.ofNat 32 (8 * m.length)) ++ wordBytes 0)))

/-- **The end**, whatever the statics held before the message. -/
theorem final_wrapped (h : Represents places memory ctx m) : (md5Final ctx).state = wrappedDigest m ∧
    (md5Final ctx).memory = memory ∧ (md5Final ctx).places = places := by
  have hrest : (rest 64 m).length = m.length % 64 := BlockHash.rest_length m
  have hlt : (rest 64 m).length < 64 := by
    rw [hrest]
    exact Nat.mod_lt _ (by decide)
  have hbuffer : ctx.buffer.toList.take (rest 64 m).length = rest 64 m := by
    rw [hrest]
    exact h.buffer
  -- the end mark and the zeros behind it
  have hmark := buffered_copy hbuffer [0x80#8] hlt
  have hmarkLength : (rest 64 m ++ [0x80#8]).length = (rest 64 m).length + 1 := List.length_append
  have hzero : (rest 64 m).length + 1 + (List.replicate (64 - ((rest 64 m).length + 1)) 0#8).length ≤ 64 := by
    rw [List.length_replicate]
    omega
  have hfill := buffered_copy hmark (List.replicate (64 - ((rest 64 m).length + 1)) 0#8) (by rw [hmarkLength]; exact hzero)
  rw [hmarkLength] at hfill
  have hfillLength : (rest 64 m ++ [0x80#8] ++ List.replicate (64 - ((rest 64 m).length + 1)) 0#8).length = 64 := by
    rw [List.length_append, hmarkLength, List.length_replicate]
    omega
  have hwhole := whole_buffer hfill hfillLength
  rw [wrappedDigest, BlockHash.absorb_append (by decide), ← h.state, md5Final, h.buflen, ← hrest, ← h.lengthWord]
  dsimp only
  rw [Nat.add_sub_cancel, copyToBuffer_eq ?_ hzero]
  swap
  · exact h.accepted
  dsimp only
  generalize copyInto (copyInto ctx.buffer (rest 64 m).length [0x80#8]) ((rest 64 m).length + 1)
    (List.replicate (64 - ((rest 64 m).length + 1)) 0#8) = filled at hfill hwhole ⊢
  rw [hwhole]
  by_cases hfull : 56 < (rest 64 m).length + 1
  · -- the mark fills the block, and the length lies in a block of its own
    have hzeros : (119 - (rest 64 m).length) % 64 = (64 - ((rest 64 m).length + 1)) + 56 := by omega
    have hclear : (copyInto filled 0 (List.replicate 64 0#8)).toList.take 56 = List.replicate 56 0#8 := by
      have hcopy := copyInto_take filled (show 0 + (List.replicate 64 0#8).length ≤ 64 from Nat.le_refl 64)
      rw [List.length_replicate, List.take_zero, List.nil_append] at hcopy
      have htake := congrArg (List.take 56) hcopy
      rw [List.take_take] at htake
      exact htake
    have hlast : (List.replicate 56 0#8 ++ (wordBytes (8 * ctx.length) ++ wordBytes 0)).length = 64 := rfl
    have hsplit : rest 64 m ++ (0x80#8 :: (List.replicate (64 - ((rest 64 m).length + 1)) 0#8 ++ List.replicate 56 0#8) ++
        (wordBytes (8 * ctx.length) ++ wordBytes 0)) =
        (rest 64 m ++ [0x80#8] ++ List.replicate (64 - ((rest 64 m).length + 1)) 0#8) ++
          (List.replicate 56 0#8 ++ (wordBytes (8 * ctx.length) ++ wordBytes 0)) := by
      simp only [List.append_assoc, List.cons_append, List.nil_append]
    rw [if_pos hfull, copyToBuffer_eq ?_ (show 0 + (List.replicate 64 0#8).length ≤ 64 from Nat.le_refl 64)]
    swap
    · exact h.accepted
    dsimp only
    rw [last_block (t := List.replicate 56 0#8) hclear rfl, hzeros, List.replicate_add, hsplit,
      BlockHash.absorb_block (by decide) hfillLength, BlockHash.absorb_one (by decide) hlast]
    exact ⟨rfl, h.answers, h.place⟩
  · have hzeros : (119 - (rest 64 m).length) % 64 = 55 - (rest 64 m).length := by omega
    have hblank : (rest 64 m ++ [0x80#8] ++ List.replicate (55 - (rest 64 m).length) 0#8).length = 56 := by
      rw [List.length_append, hmarkLength, List.length_replicate]
      omega
    have hclear : filled.toList.take (rest 64 m ++ [0x80#8] ++ List.replicate (55 - (rest 64 m).length) 0#8).length =
        rest 64 m ++ [0x80#8] ++ List.replicate (55 - (rest 64 m).length) 0#8 := by
      have hsum : 64 - ((rest 64 m).length + 1) = (55 - (rest 64 m).length) + 8 := by omega
      rw [hwhole, hsum, List.replicate_add, ← List.append_assoc, List.take_left]
    have hsplit : rest 64 m ++ (0x80#8 :: List.replicate (55 - (rest 64 m).length) 0#8 ++ (wordBytes (8 * ctx.length) ++ wordBytes 0)) =
        rest 64 m ++ [0x80#8] ++ List.replicate (55 - (rest 64 m).length) 0#8 ++ (wordBytes (8 * ctx.length) ++ wordBytes 0) := by
      simp only [List.append_assoc, List.cons_append, List.nil_append]
    rw [if_neg hfull]
    dsimp only
    rw [last_block hclear hblank, hzeros, hsplit, BlockHash.absorb_one (by decide) (by rw [List.length_append, hblank]; rfl)]
    exact ⟨rfl, h.answers, h.place⟩

theorem wrappedDigest_eq (hm : m.length < 2 ^ 29) : wrappedDigest m = digest m := by
  rw [wrappedDigest, digest, pad, lengthBytes, Nat.div_eq_of_lt (by omega)]
  rfl

/-- **The end**: the digest of what the context stands for. -/
theorem final_represents (h : Represents places memory ctx m) (hm : m.length < 2 ^ 29) : (md5Final ctx).state = digest m :=
  (final_wrapped h).1.trans (wrappedDigest_eq hm)

end TrustedGrub.Md5
