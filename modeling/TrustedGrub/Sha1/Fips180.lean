import TrustedGrub.Lib.BlockHash

/-!
# FIPS 180-1: the secure hash algorithm

The standard's definition, on byte messages: padding, message schedule, eighty
steps a block, and the chaining. It is stated on its own and names nothing of
the program.
-/

namespace Fips180

abbrev Byte := BitVec 8
abbrev Word := BitVec 32

/-- Circular left shift by `n` bits. -/
def rotl (n : Nat) (x : Word) : Word := (x <<< n) ||| (x >>> (32 - n))

/-- The five working variables, and the five words of a chaining value. -/
@[ext] structure Words where
  a : Word
  b : Word
  c : Word
  d : Word
  e : Word
  deriving DecidableEq, Repr

/-- The logical function of step `t`. -/
def func (t : Nat) (b c d : Word) : Word :=
  if t < 20 then (b &&& c) ||| (~~~b &&& d)
  else if t < 40 then b ^^^ c ^^^ d
  else if t < 60 then (b &&& c) ||| (b &&& d) ||| (c &&& d)
  else b ^^^ c ^^^ d

/-- The constant of step `t`. -/
def const (t : Nat) : Word :=
  if t < 20 then 0x5A827999#32
  else if t < 40 then 0x6ED9EBA1#32
  else if t < 60 then 0x8F1BBCDC#32
  else 0xCA62C1D6#32

theorem four_bytes : 8 + 8 + 8 + 8 = 32 := rfl

/-- The word at byte offset `i` of a block, most significant byte first. -/
def wordAt (block : List Byte) (i : Nat) : Word :=
  (block.getD i 0 ++ block.getD (i + 1) 0 ++ block.getD (i + 2) 0 ++ block.getD (i + 3) 0).cast four_bytes

/-- The message schedule of a block. -/
def schedule (block : List Byte) (t : Nat) : Word :=
  if t < 16 then wordAt block (4 * t)
  else rotl 1 (schedule block (t - 3) ^^^ schedule block (t - 8) ^^^ schedule block (t - 14) ^^^
    schedule block (t - 16))
termination_by t

/-- Step `t` of the main loop. -/
def step (w : Nat → Word) (v : Words) (t : Nat) : Words where
  a := rotl 5 v.a + func t v.b v.c v.d + v.e + w t + const t
  b := v.a
  c := rotl 30 v.b
  d := v.c
  e := v.d

/-- The first `t` steps. -/
def steps (w : Nat → Word) (v : Words) (t : Nat) : Words := (List.range t).foldl (step w) v

/-- One block. -/
def compress (h : Words) (block : List Byte) : Words :=
  let v := steps (schedule block) h 80
  ⟨h.a + v.a, h.b + v.b, h.c + v.c, h.d + v.d, h.e + v.e⟩

/-- The initial chaining value. -/
def initial : Words := ⟨0x67452301#32, 0xEFCDAB89#32, 0x98BADCFE#32, 0x10325476#32, 0xC3D2E1F0#32⟩

/-- The two-word representation of the message's length in bits. -/
def lengthBytes (bits : Nat) : List Byte :=
  (List.range 8).map fun i => BitVec.ofNat 8 (bits >>> (8 * (7 - i)))

/-- A one bit, the fewest zero bits that make the result sixty-four bits short
of a block, and the length in bits. -/
def pad (m : List Byte) : List Byte :=
  m ++ 0x80#8 :: List.replicate ((119 - m.length % 64) % 64) 0#8 ++ lengthBytes (8 * m.length)

/-- The digest of a message. -/
def sha1 (m : List Byte) : Words := BlockHash.absorb 64 compress initial (pad m)

end Fips180
