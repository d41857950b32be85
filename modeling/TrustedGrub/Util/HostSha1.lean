import TrustedGrub.Sha1.Context

/-!
# The host's SHA-1

`util/sha1.c` is the text of `stage2/sha1.c` compiled for the host, where `t_U32` is an
`unsigned long` of `w` bits, at least 32. What lies above the low 32 bits of its words is
never looked at: the low halves go through the same states as the boot loader's words.
-/

namespace TrustedGrub.Util
open Fips180 (Byte Word Words)
open Sha1 (copyInto sha1Padding Represents)

variable {w : Nat}

/-! ## `sha1_process` -/

/-- `CONCAT_4_BYTES (w32, w8, w8_i)`. -/
def concat4Bytes (w8 : List Byte) (i : Nat) : BitVec w :=
  ((w8.getD i 0).setWidth w <<< 24) ||| ((w8.getD (i + 1) 0).setWidth w <<< 16) |||
    ((w8.getD (i + 2) 0).setWidth w <<< 8) ||| (w8.getD (i + 3) 0).setWidth w

/-- `ROTATE_N_LEFT (x, n)`. -/
def rotateNLeft (x : BitVec w) (n : Nat) : BitVec w := (x <<< n) ||| ((x &&& 0xFFFFFFFF#w) >>> (32 - n))

/-- The registers `A .. E` and the words `W [16]`. -/
structure Regs (w : Nat) where
  A : BitVec w
  B : BitVec w
  C : BitVec w
  D : BitVec w
  E : BitVec w
  W : List (BitVec w)

/-- The word of round `t`, and `W` after its evaluation. -/
def extendedW (W : List (BitVec w)) (t : Nat) : BitVec w × List (BitVec w) :=
  if t < 16 then (W.getD t 0, W)
  else
    let temp := W.getD ((t - 3) % 16) 0 ^^^ W.getD ((t - 8) % 16) 0 ^^^ W.getD ((t - 14) % 16) 0 ^^^
      W.getD (t % 16) 0
    (rotateNLeft temp 1, W.set (t % 16) (rotateNLeft temp 1))

/-- The macro `P (a, b, c, d, e, Wi)`: the new values of `e` and `b`. -/
def P (F : BitVec w → BitVec w → BitVec w → BitVec w) (K a b c d e Wi : BitVec w) : BitVec w × BitVec w :=
  (e + (rotateNLeft a 5 + F b c d + K + Wi), rotateNLeft b 30)

/-- `F` and `K` as `#define`d for the rounds from `t` on. -/
def F (t : Nat) (x y z : BitVec w) : BitVec w :=
  if t < 20 then z ^^^ (x &&& (y ^^^ z))
  else if t < 40 then x ^^^ y ^^^ z
  else if t < 60 then (x &&& y) ||| (z &&& (x ||| y))
  else x ^^^ y ^^^ z

def K (t : Nat) : BitVec w :=
  if t < 20 then 0x5A827999#w
  else if t < 40 then 0x6ED9EBA1#w
  else if t < 60 then 0x8F1BBCDC#w
  else 0xCA62C1D6#w

/-- Rounds `t .. t + 4`, with the register permutations of the source. -/
def group (F : BitVec w → BitVec w → BitVec w → BitVec w) (K : BitVec w) (t : Nat) (r : Regs w) : Regs w :=
  let (w, W) := extendedW r.W t
  let (E, B) := P F K r.A r.B r.C r.D r.E w
  let (w, W) := extendedW W (t + 1)
  let (D, A) := P F K E r.A B r.C r.D w
  let (w, W) := extendedW W (t + 2)
  let (C, E) := P F K D E A B r.C w
  let (w, W) := extendedW W (t + 3)
  let (B, D) := P F K C D E A B w
  let (w, W) := extendedW W (t + 4)
  let (A, C) := P F K B C D E A w
  ⟨A, B, C, D, E, W⟩

/-- The first `5 * k` rounds. -/
def rounds (r : Regs w) (k : Nat) : Regs w := (List.range k).foldl (fun r i => group (F (5 * i)) (K (5 * i)) (5 * i) r) r

/-- `W [0] .. W [15]` as the sixteen `CONCAT_4_BYTES` fill them. -/
def firstW (byte64Block : List Byte) : List (BitVec w) := (List.range 16).map fun i => concat4Bytes byte64Block (4 * i)

/-- `vector [5]`, and a `t_U32 hash_result [5]`. -/
structure HostWords (w : Nat) where
  a : BitVec w
  b : BitVec w
  c : BitVec w
  d : BitVec w
  e : BitVec w

/-- `sha1_process` on the vector of the context. -/
def sha1Process (vector : HostWords w) (byte64Block : List Byte) : HostWords w :=
  let r := rounds ⟨vector.a, vector.b, vector.c, vector.d, vector.e, firstW byte64Block⟩ 16
  ⟨vector.a + r.A, vector.b + r.B, vector.c + r.C, vector.d + r.D, vector.e + r.E⟩

/-! ## `sha1_init`, `sha1_update`, `sha1_finish` -/

/-- `sha1_context`. -/
structure Sha1Context (w : Nat) where
  totalBytesHi : BitVec w
  totalBytesLo : BitVec w
  vector : HostWords w
  buffer : Vector Byte 64

def sha1Init (ctx : Sha1Context w) : Sha1Context w :=
  { ctx with
    totalBytesLo := 0#w
    totalBytesHi := 0#w
    vector := ⟨0x67452301#w, 0xEFCDAB89#w, 0x98BADCFE#w, 0x10325476#w, 0xC3D2E1F0#w⟩ }

/-- `while (chunk_length >= 64)`: the vector after, and the data left. -/
def wholeBlocks : Nat → HostWords w → List Byte → HostWords w × List Byte
  | 0, vector, chunkData => (vector, chunkData)
  | fuel + 1, vector, chunkData =>
    if 64 ≤ chunkData.length then wholeBlocks fuel (sha1Process vector (chunkData.take 64)) (chunkData.drop 64)
    else (vector, chunkData)

/-- `sha1_update`: the result and the context after. -/
def sha1Update (ctx : Sha1Context w) (chunkData : List Byte) : Int × Sha1Context w :=
  if chunkData.length < 1 then (-1, ctx)
  else
    let chunkLength := BitVec.ofNat w chunkData.length
    let left := (ctx.totalBytesLo &&& 0x3F#w).toNat
    let fill := 64 - left
    -- mask 32 bit
    let totalBytesLo := (ctx.totalBytesLo + chunkLength) &&& 0xFFFFFFFF#w
    let totalBytesHi := if totalBytesLo < chunkLength then ctx.totalBytesHi + 1#w else ctx.totalBytesHi
    let full := 0 < left ∧ fill ≤ chunkData.length
    let filled := copyInto ctx.buffer left (chunkData.take fill)
    let buffer := if full then filled else ctx.buffer
    let vector := if full then sha1Process ctx.vector filled.toList else ctx.vector
    let chunkData := if full then chunkData.drop fill else chunkData
    let left := if full then 0 else left
    let (vector, chunkData) := wholeBlocks chunkData.length vector chunkData
    let buffer := if 0 < chunkData.length then copyInto buffer left chunkData else buffer
    (0, ⟨totalBytesHi, totalBytesLo, vector, buffer⟩)

/-- `SPLIT_INTO_4_BYTES (w32, w8, w8_i)`: the four bytes stored. -/
def splitInto4Bytes (w32 : BitVec w) : List Byte :=
  [(w32 >>> 24).setWidth 8, (w32 >>> 16).setWidth 8, (w32 >>> 8).setWidth 8, w32.setWidth 8]

/-- `sha1_finish`: the digest words and the context after. -/
def sha1Finish (ctx : Sha1Context w) : HostWords w × Sha1Context w :=
  let high := (ctx.totalBytesLo >>> 29) ||| (ctx.totalBytesHi <<< 3)
  let low := ctx.totalBytesLo <<< 3
  let msglen := splitInto4Bytes high ++ splitInto4Bytes low
  let last := (ctx.totalBytesLo &&& 0x3F#w).toNat
  let padn := if last < 56 then 56 - last else 120 - last
  let ctx := (sha1Update ctx (sha1Padding.take padn)).2
  let ctx := (sha1Update ctx msglen).2
  (ctx.vector, ctx)

/-! ## The low halves -/

/-- The low 32 bits. -/
def low (x : BitVec w) : Word := x.setWidth 32

theorem low_and (x y : BitVec w) : low (x &&& y) = low x &&& low y := BitVec.setWidth_and

theorem low_or (x y : BitVec w) : low (x ||| y) = low x ||| low y := BitVec.setWidth_or

theorem low_xor (x y : BitVec w) : low (x ^^^ y) = low x ^^^ low y := BitVec.setWidth_xor

section Low
variable (hw : 32 ≤ w)
include hw

theorem low_add (x y : BitVec w) : low (x + y) = low x + low y := BitVec.setWidth_add x y hw

theorem low_ofNat (n : Nat) : low (BitVec.ofNat w n) = BitVec.ofNat 32 n := BitVec.setWidth_ofNat_of_le hw n

theorem low_shiftLeft (x : BitVec w) (n : Nat) : low (x <<< n) = low x <<< n := BitVec.setWidth_shiftLeft_of_le hw

theorem low_byte (b : Byte) : low (b.setWidth w) = b.setWidth 32 := BitVec.setWidth_setWidth_of_le b hw

theorem low_rotate (x : BitVec w) (n : Nat) : low (rotateNLeft x n) = Sha1.rotateNLeft (low x) n := by
  rw [rotateNLeft, Sha1.rotateNLeft, low_or, low_shiftLeft hw]
  congr 1
  apply BitVec.eq_of_getLsbD_eq
  intro i hi
  have hmask (k j : Nat) (hk : 32 ≤ k) : (0xFFFFFFFF#k).getLsbD j = decide (j < 32) := by
    have hones : (0xFFFFFFFF : Nat) = 2 ^ 32 - 1 := rfl
    rw [BitVec.getLsbD_ofNat, hones, Nat.testBit_two_pow_sub_one]
    by_cases hj : j < 32
    · simp [hj, show j < k by omega]
    · simp [hj]
  simp only [low, BitVec.getLsbD_setWidth, BitVec.getLsbD_ushiftRight, BitVec.getLsbD_and, hmask w _ hw, hmask 32 _ (Nat.le_refl _), hi,
    decide_true, Bool.true_and]
  by_cases hin : 32 - n + i < 32
  · simp [hin]
  · simp [hin]

theorem low_concat (block : List Byte) (i : Nat) : low (concat4Bytes block i : BitVec w) = Sha1.concat4Bytes block i := by
  simp only [concat4Bytes, Sha1.concat4Bytes, low_or, low_shiftLeft hw, low_byte hw]

omit hw in
theorem low_F (t : Nat) (x y z : BitVec w) : low (F t x y z) = Sha1.F t (low x) (low y) (low z) := by
  unfold F Sha1.F
  split
  · rw [low_xor, low_and, low_xor]
  · split
    · rw [low_xor, low_xor]
    · split
      · rw [low_or, low_and, low_and, low_or]
      · rw [low_xor, low_xor]

theorem low_K (t : Nat) : low (K t : BitVec w) = Sha1.K t := by
  unfold K Sha1.K
  split
  · exact low_ofNat hw _
  · split
    · exact low_ofNat hw _
    · split
      · exact low_ofNat hw _
      · exact low_ofNat hw _

theorem low_P (t : Nat) (a b c d e Wi : BitVec w) :
    low (P (F t) (K t) a b c d e Wi).1 = (Sha1.P (Sha1.F t) (Sha1.K t) (low a) (low b) (low c) (low d) (low e) (low Wi)).1 ∧
      low (P (F t) (K t) a b c d e Wi).2 = (Sha1.P (Sha1.F t) (Sha1.K t) (low a) (low b) (low c) (low d) (low e) (low Wi)).2 := by
  constructor
  · simp only [P, Sha1.P, low_add hw, low_rotate hw, low_F, low_K hw]
  · simp only [P, Sha1.P, low_rotate hw]

omit hw in
theorem low_getD (W : List (BitVec w)) (i : Nat) : low (W.getD i 0) = (W.map low).getD i 0 := by
  rw [List.getD_eq_getElem?_getD, List.getD_eq_getElem?_getD, List.getElem?_map]
  cases W[i]? with
  | none => exact BitVec.setWidth_zero 32 w
  | some x => rfl

theorem low_extendedW (W : List (BitVec w)) (t : Nat) :
    (low (extendedW W t).1, (extendedW W t).2.map low) = Sha1.extendedW (W.map low) t := by
  unfold extendedW Sha1.extendedW
  split
  · rw [low_getD]
  · simp only [List.map_set, low_rotate hw, low_xor, low_getD]

/-- The low halves of the registers. -/
def Regs.low (r : Regs w) : Sha1.Regs := ⟨Util.low r.A, Util.low r.B, Util.low r.C, Util.low r.D, Util.low r.E, r.W.map Util.low⟩

theorem low_group (t : Nat) (r : Regs w) :
    (group (F t) (K t) t r).low = Sha1.group (Sha1.F t) (Sha1.K t) t r.low := by
  have hword (W : List (BitVec w)) (t : Nat) : (Sha1.extendedW (W.map Util.low) t).1 = Util.low (extendedW W t).1 := by
    rw [← low_extendedW hw]
  have hrest (W : List (BitVec w)) (t : Nat) : (Sha1.extendedW (W.map Util.low) t).2 = (extendedW W t).2.map Util.low := by
    rw [← low_extendedW hw]
  have hfst (a b c d e Wi : BitVec w) := (low_P hw t a b c d e Wi).1
  have hsnd (a b c d e Wi : BitVec w) := (low_P hw t a b c d e Wi).2
  simp only [group, Sha1.group, Regs.low, hword, hrest, hfst, hsnd]

theorem low_rounds (r : Regs w) (k : Nat) : (rounds r k).low = Sha1.rounds r.low k := by
  induction k with
  | zero => rfl
  | succ k ih =>
    have hlast : rounds r (k + 1) = group (F (5 * k)) (K (5 * k)) (5 * k) (rounds r k) := by
      simp only [rounds, List.range_succ, List.foldl_append, List.foldl_cons, List.foldl_nil]
    rw [hlast, low_group hw, ih, Sha1.rounds_succ]

theorem low_firstW (block : List Byte) : (firstW block : List (BitVec w)).map Util.low = Sha1.firstW block := by
  simp only [firstW, Sha1.firstW, List.map_map]
  exact List.map_congr_left fun i _ => low_concat hw block (4 * i)

/-- The low halves of the words. -/
def HostWords.low (v : HostWords w) : Words := ⟨Util.low v.a, Util.low v.b, Util.low v.c, Util.low v.d, Util.low v.e⟩

theorem low_process (vector : HostWords w) (block : List Byte) :
    (sha1Process vector block).low = Sha1.sha1Process vector.low block := by
  have hrounds := low_rounds hw ⟨vector.a, vector.b, vector.c, vector.d, vector.e, firstW block⟩ 16
  have hstart : (⟨vector.a, vector.b, vector.c, vector.d, vector.e, firstW block⟩ : Regs w).low =
      ⟨vector.low.a, vector.low.b, vector.low.c, vector.low.d, vector.low.e, Sha1.firstW block⟩ := by
    simp only [Regs.low, HostWords.low, low_firstW hw]
  rw [hstart] at hrounds
  simp only [Sha1.sha1Process, ← hrounds]
  simp only [sha1Process, HostWords.low, Regs.low, low_add hw]

theorem low_wholeBlocks (fuel : Nat) : ∀ (vector : HostWords w) (data : List Byte),
    ((wholeBlocks fuel vector data).1.low, (wholeBlocks fuel vector data).2) = Sha1.wholeBlocks fuel vector.low data := by
  induction fuel with
  | zero => intro vector data; rfl
  | succ fuel ih =>
    intro vector data
    unfold wholeBlocks Sha1.wholeBlocks
    split
    · rw [ih, low_process hw]
    · rfl

/-- The low halves of a context. -/
def Sha1Context.low (ctx : Sha1Context w) : Sha1.Sha1Context :=
  ⟨Util.low ctx.totalBytesHi, Util.low ctx.totalBytesLo, ctx.vector.low, ctx.buffer⟩

omit hw in
theorem low_toNat {x : BitVec w} (hx : x.toNat < 2 ^ 32) : (low x).toNat = x.toNat := by
  rw [low, BitVec.toNat_setWidth, Nat.mod_eq_of_lt hx]

theorem ofNat_host {n : Nat} (hn : n < 2 ^ 32) : (BitVec.ofNat w n).toNat = n := by
  rw [BitVec.toNat_ofNat, Nat.mod_eq_of_lt (Nat.lt_of_lt_of_le hn (Nat.pow_le_pow_right (by decide) hw))]

theorem host_six_bits (x : BitVec w) : (x &&& 0x3F#w).toNat = x.toNat % 64 := by
  rw [BitVec.toNat_and, ofNat_host hw (by decide)]
  exact Nat.and_two_pow_sub_one_eq_mod x.toNat 6

theorem host_mask (x : BitVec w) : (x &&& 0xFFFFFFFF#w).toNat = x.toNat % 2 ^ 32 := by
  rw [BitVec.toNat_and, ofNat_host hw (by decide)]
  exact Nat.and_two_pow_sub_one_eq_mod x.toNat 32

/-- **The step**: an update of the host's context is one of the low halves. -/
theorem low_update {ctx : Sha1Context w} (hlo : ctx.totalBytesLo.toNat < 2 ^ 32) {chunk : List Byte} (hc : chunk.length < 2 ^ 32) :
    (sha1Update ctx chunk).1 = (Sha1.sha1Update ctx.low chunk).1 ∧ (sha1Update ctx chunk).2.low = (Sha1.sha1Update ctx.low chunk).2 ∧
      (sha1Update ctx chunk).2.totalBytesLo.toNat < 2 ^ 32 := by
  by_cases hempty : chunk.length < 1
  · simp only [sha1Update, Sha1.sha1Update, if_pos hempty]
    exact ⟨trivial, trivial, hlo⟩
  have hleft : (ctx.totalBytesLo &&& 0x3F#w).toNat = (ctx.low.totalBytesLo &&& 0x3F#32).toNat := by
    have hsame : ctx.low.totalBytesLo.toNat = ctx.totalBytesLo.toNat := low_toNat hlo
    rw [host_six_bits hw, Sha1.low_six_bits, hsame]
  have hsum : low ((ctx.totalBytesLo + BitVec.ofNat w chunk.length) &&& 0xFFFFFFFF#w) =
      ctx.low.totalBytesLo + BitVec.ofNat 32 chunk.length := by
    have hones : (0xFFFFFFFF#32 : Word) = BitVec.allOnes 32 := by decide
    rw [low_and, low_add hw, low_ofNat hw, low_ofNat hw, hones, BitVec.and_allOnes]
    rfl
  have hbound := host_mask hw (ctx.totalBytesLo + BitVec.ofNat w chunk.length)
  have hmasked : ((ctx.totalBytesLo + BitVec.ofNat w chunk.length) &&& 0xFFFFFFFF#w).toNat < 2 ^ 32 := by omega
  have hcarry : (ctx.totalBytesLo + BitVec.ofNat w chunk.length) &&& 0xFFFFFFFF#w < BitVec.ofNat w chunk.length ↔
      ctx.low.totalBytesLo + BitVec.ofNat 32 chunk.length < BitVec.ofNat 32 chunk.length := by
    rw [← hsum, BitVec.lt_def, BitVec.lt_def, low_toNat hmasked, ofNat_host hw hc, BitVec.toNat_ofNat, Nat.mod_eq_of_lt hc]
  have hhi : low (if (ctx.totalBytesLo + BitVec.ofNat w chunk.length) &&& 0xFFFFFFFF#w < BitVec.ofNat w chunk.length
      then ctx.totalBytesHi + 1#w else ctx.totalBytesHi) =
      if ctx.low.totalBytesLo + BitVec.ofNat 32 chunk.length < BitVec.ofNat 32 chunk.length then ctx.low.totalBytesHi + 1
      else ctx.low.totalBytesHi := by
    simp only [hcarry]
    split
    · rw [low_add hw, low_ofNat hw]
      rfl
    · rfl
  simp only [sha1Update, Sha1.sha1Update, if_neg hempty, hleft]
  refine ⟨trivial, ?_, hmasked⟩
  generalize (ctx.low.totalBytesLo &&& 0x3F#32).toNat = left
  have hvector (b : List Byte) : (if 0 < left ∧ 64 - left ≤ chunk.length then sha1Process ctx.vector b else ctx.vector).low =
      if 0 < left ∧ 64 - left ≤ chunk.length then Sha1.sha1Process ctx.low.vector b else ctx.low.vector := by
    split
    · exact low_process hw _ _
    · rfl
  have hblocks (fuel : Nat) (b data : List Byte) := low_wholeBlocks hw fuel
    (if 0 < left ∧ 64 - left ≤ chunk.length then sha1Process ctx.vector b else ctx.vector) data
  simp only [hvector] at hblocks
  simp only [Sha1Context.low, Sha1.Sha1Context.mk.injEq]
  simp only [Sha1Context.low] at hhi hsum hblocks
  refine ⟨hhi, hsum, ?_, ?_⟩
  · rw [← hblocks]
  · simp only [← hblocks]

omit hw in
theorem host_split (x : BitVec w) : splitInto4Bytes x = Sha1.splitInto4Bytes (low x) := by
  have hbyte (k : Nat) (hk : k ≤ 24) : (x >>> k).setWidth 8 = (low x >>> k).setWidth 8 := by
    apply BitVec.eq_of_getLsbD_eq
    intro i hi
    simp only [low, BitVec.getLsbD_setWidth, BitVec.getLsbD_ushiftRight, hi, show k + i < 32 by omega, decide_true, Bool.true_and]
  have hlast : x.setWidth 8 = (low x).setWidth 8 := (BitVec.setWidth_setWidth_of_le x (by decide)).symm
  simp only [splitInto4Bytes, Sha1.splitInto4Bytes, hbyte 24 (by decide), hbyte 16 (by decide), hbyte 8 (by decide), hlast]

omit hw in
theorem low_ushiftRight {x : BitVec w} (hx : x.toNat < 2 ^ 32) (n : Nat) : low (x >>> n) = low x >>> n := by
  apply BitVec.eq_of_toNat_eq
  rw [low, BitVec.toNat_setWidth, BitVec.toNat_ushiftRight, BitVec.toNat_ushiftRight, low_toNat hx,
    Nat.mod_eq_of_lt (Nat.lt_of_le_of_lt (Nat.shiftRight_le _ _) hx)]

/-- **The end**: the digest words are the boot loader's in their low halves. -/
theorem low_finish {ctx : Sha1Context w} (hlo : ctx.totalBytesLo.toNat < 2 ^ 32) :
    (sha1Finish ctx).1.low = (Sha1.sha1Finish ctx.low).1 := by
  have hlast : (ctx.totalBytesLo &&& 0x3F#w).toNat = (ctx.low.totalBytesLo &&& 0x3F#32).toNat := by
    have hsame : ctx.low.totalBytesLo.toNat = ctx.totalBytesLo.toNat := low_toNat hlo
    rw [host_six_bits hw, Sha1.low_six_bits, hsame]
  have hhigh : low ((ctx.totalBytesLo >>> 29) ||| (ctx.totalBytesHi <<< 3)) =
      (ctx.low.totalBytesLo >>> 29) ||| (ctx.low.totalBytesHi <<< 3) := by
    rw [low_or, low_ushiftRight hlo, low_shiftLeft hw]
    rfl
  have hlow : low (ctx.totalBytesLo <<< 3) = ctx.low.totalBytesLo <<< 3 := low_shiftLeft hw _ _
  simp only [sha1Finish, Sha1.sha1Finish, hlast, host_split, hhigh, hlow]
  generalize hpad : sha1Padding.take _ = padding
  have hshort : padding.length ≤ 64 := by
    rw [← hpad, List.length_take]
    exact Nat.min_le_right _ _
  obtain ⟨-, hpadded, hlo'⟩ := low_update hw hlo (by omega : padding.length < 2 ^ 32)
  have hlength (x y : Word) : (Sha1.splitInto4Bytes x ++ Sha1.splitInto4Bytes y).length < 2 ^ 32 := by
    simp only [Sha1.splitInto4Bytes, List.length_append, List.length_cons, List.length_nil]
    decide
  obtain ⟨-, hdone, -⟩ := low_update hw hlo' (hlength ((ctx.low.totalBytesLo >>> 29) ||| (ctx.low.totalBytesHi <<< 3))
    (ctx.low.totalBytesLo <<< 3))
  rw [hpadded] at hdone
  rw [← hdone]
  rfl

/-- The host's context has absorbed exactly the bytes of `m`. -/
structure HostRepresents (ctx : Sha1Context w) (m : List Byte) : Prop where
  low : Represents ctx.low m
  bounded : ctx.totalBytesLo.toNat < 2 ^ 32

theorem host_init (ctx : Sha1Context w) : HostRepresents (sha1Init ctx) [] := by
  have hinit : (sha1Init ctx).low = Sha1.sha1Init ctx.low := by
    simp only [sha1Init, Sha1Context.low, HostWords.low, low_ofNat hw]
    rfl
  constructor
  · rw [hinit]
    exact Sha1.init_represents ctx.low
  · rw [sha1Init, ofNat_host hw (by decide)]
    decide

theorem HostRepresents.update {ctx : Sha1Context w} {m : List Byte} (h : HostRepresents ctx m) {chunk : List Byte}
    (hc : chunk.length < 2 ^ 32) : HostRepresents (sha1Update ctx chunk).2 (m ++ chunk) := by
  obtain ⟨-, hlow, hlo⟩ := low_update hw h.bounded hc
  refine ⟨?_, hlo⟩
  rw [hlow]
  exact Sha1.update_represents h.low hc

theorem HostRepresents.finish {ctx : Sha1Context w} {m : List Byte} (h : HostRepresents ctx m) (hm : m.length < 2 ^ 61) :
    (sha1Finish ctx).1.low = Fips180.sha1 m := by
  rw [low_finish hw h.bounded]
  exact Sha1.finish_represents h.low hm

/-- Feeding the chunks one after another. -/
def updates (ctx : Sha1Context w) (chunks : List Sha1.Chunk) : Sha1Context w :=
  chunks.foldl (fun ctx chunk => (sha1Update ctx chunk.bytes).2) ctx

/-- **The run** over the chunks of a message. -/
theorem HostRepresents.updates {ctx : Sha1Context w} {m : List Byte} (h : HostRepresents ctx m) (chunks : List Sha1.Chunk) :
    HostRepresents (updates ctx chunks) (m ++ chunks.flatMap Sha1.Chunk.bytes) := by
  induction chunks generalizing ctx m with
  | nil =>
    rw [List.flatMap_nil, List.append_nil]
    exact h
  | cons chunk chunks ih =>
    rw [List.flatMap_cons, ← List.append_assoc]
    exact ih (h.update hw chunk.fits)

end Low

/-! ## `calculate_sha1` -/

/-- `TCG_BUFFER_SIZE` of the host. -/
def tcgBufferSize : Nat := 0xEFFF

/-- The rounds over an open file, of which `data` are left: `none` where an update reports
an error. Each round but the last takes at least a byte, which bounds the rounds. -/
def copyRounds : Nat → List Byte → Sha1Context w → Option (Sha1Context w)
  | 0, _, _ => none
  | fuel + 1, data, ctx =>
    if tcgBufferSize < data.length then
      let (result, ctx) := sha1Update ctx (data.take tcgBufferSize)
      if result ≠ 0 then none else copyRounds fuel (data.drop tcgBufferSize) ctx
    else
      let (result, ctx) := sha1Update ctx data
      if result ≠ 0 then none else some ctx

/-- `calculate_sha1` on a file that the host opens and reads in full, from a context with
whatever the stack holds; `none` where it returns an error. -/
def calculateSha1 (stack : Sha1Context w) (file : Option (List Byte)) : Option (HostWords w) :=
  match file with
  | none => none
  | some data => (copyRounds (data.length + 1) data (sha1Init stack)).map fun ctx => (sha1Finish ctx).1

theorem update_result (ctx : Sha1Context w) {chunk : List Byte} (h : chunk ≠ []) : (sha1Update ctx chunk).1 = 0 := by
  have hlen : ¬ chunk.length < 1 := fun hno => h (List.eq_nil_of_length_eq_zero (by omega))
  simp only [sha1Update, if_neg hlen]

/-- The rounds hash a file that is not empty. -/
theorem copyRounds_represents (hw : 32 ≤ w) (fuel : Nat) : ∀ {data m : List Byte} {ctx : Sha1Context w}, HostRepresents ctx m →
    data ≠ [] → data.length < fuel → data.length < 2 ^ 32 → ∃ ctx',
      copyRounds fuel data ctx = some ctx' ∧ HostRepresents ctx' (m ++ data) := by
  induction fuel with
  | zero => intro data m ctx _ _ hfuel _; exact absurd hfuel (Nat.not_lt_zero _)
  | succ fuel ih =>
    intro data m ctx h hne hfuel hfits
    simp only [copyRounds]
    by_cases hlong : tcgBufferSize < data.length
    · have hsize : 0 < tcgBufferSize := by decide
      have hlen : (data.take tcgBufferSize).length = tcgBufferSize := by
        rw [List.length_take]
        omega
      have hrest : (data.drop tcgBufferSize).length = data.length - tcgBufferSize := List.length_drop
      have htaken : data.take tcgBufferSize ≠ [] := List.ne_nil_of_length_pos (by omega)
      have hleft : data.drop tcgBufferSize ≠ [] := List.ne_nil_of_length_pos (by omega)
      have hresult : ¬ (sha1Update ctx (data.take tcgBufferSize)).1 ≠ 0 := not_not.2 (update_result ctx htaken)
      rw [if_pos hlong, if_neg hresult]
      have hstep : HostRepresents (sha1Update ctx (data.take tcgBufferSize)).2 (m ++ data.take tcgBufferSize) :=
        h.update hw (by omega)
      obtain ⟨ctx', hrun, hrep⟩ := ih hstep hleft (by omega) (by omega)
      refine ⟨ctx', hrun, ?_⟩
      rwa [List.append_assoc, List.take_append_drop] at hrep
    · have hresult : ¬ (sha1Update ctx data).1 ≠ 0 := not_not.2 (update_result ctx hne)
      rw [if_neg hlong, if_neg hresult]
      exact ⟨_, rfl, h.update hw hfits⟩

/-- **The host's digest of a file**: that of its bytes, and none of an empty file. -/
theorem calculateSha1_digest (hw : 32 ≤ w) (stack : Sha1Context w) {data : List Byte} (hne : data ≠ []) (hfits : data.length < 2 ^ 32) :
    ∃ hash, calculateSha1 stack (some data) = some hash ∧ hash.low = Fips180.sha1 data := by
  obtain ⟨ctx, hrun, hrep⟩ := copyRounds_represents hw (data.length + 1) (host_init hw stack) hne (Nat.lt_succ_self _) hfits
  refine ⟨(sha1Finish ctx).1, ?_, ?_⟩
  · simp only [calculateSha1, hrun, Option.map_some]
  · rw [List.nil_append] at hrep
    exact hrep.finish hw (by omega)

theorem calculateSha1_empty (stack : Sha1Context w) : calculateSha1 stack (some []) = none := rfl

end TrustedGrub.Util
