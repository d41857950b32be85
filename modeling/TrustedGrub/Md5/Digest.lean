import TrustedGrub.Sha1.Fips180
import Mathlib.Algebra.Group.Nat.Defs

/-!
# The message digest

RFC 1321 on byte messages: four rounds of sixteen steps a block, the padding and the chaining. The block function is
`md5_transform` of `stage2/md5.c`, which keeps the form of the standard.
-/

namespace TrustedGrub.Md5
open Fips180 (Byte Word)

/-- The four words of a chaining value, `state`. -/
structure Words where
  a : Word
  b : Word
  c : Word
  d : Word
  deriving DecidableEq

def F (x y z : Word) : Word := (x &&& y) ||| (~~~x &&& z)
def G (x y z : Word) : Word := (x &&& z) ||| (y &&& ~~~z)
def H (x y z : Word) : Word := x ^^^ y ^^^ z
def I (x y z : Word) : Word := y ^^^ (x ||| ~~~z)

/-- `ROTATE_LEFT` -/
def rotateLeft (x : Word) (n : Nat) : Word := (x <<< n) ||| (x >>> (32 - n))

def initstate : Words := ⟨0x67452301#32, 0xefcdab89#32, 0x98badcfe#32, 0x10325476#32⟩

def s1 : List Nat := [7, 12, 17, 22]
def s2 : List Nat := [5, 9, 14, 20]
def s3 : List Nat := [4, 11, 16, 23]
def s4 : List Nat := [6, 10, 15, 21]

def T : List Word := [
  0xd76aa478, 0xe8c7b756, 0x242070db, 0xc1bdceee, 0xf57c0faf, 0x4787c62a, 0xa8304613, 0xfd469501,
  0x698098d8, 0x8b44f7af, 0xffff5bb1, 0x895cd7be, 0x6b901122, 0xfd987193, 0xa679438e, 0x49b40821,
  0xf61e2562, 0xc040b340, 0x265e5a51, 0xe9b6c7aa, 0xd62f105d, 0x02441453, 0xd8a1e681, 0xe7d3fbc8,
  0x21e1cde6, 0xc33707d6, 0xf4d50d87, 0x455a14ed, 0xa9e3e905, 0xfcefa3f8, 0x676f02d9, 0x8d2a4c8a,
  0xfffa3942, 0x8771f681, 0x6d9d6122, 0xfde5380c, 0xa4beea44, 0x4bdecfa9, 0xf6bb4b60, 0xbebfbc70,
  0x289b7ec6, 0xeaa127fa, 0xd4ef3085, 0x04881d05, 0xd9d4d039, 0xe6db99e5, 0x1fa27cf8, 0xc4ac5665,
  0xf4292244, 0x432aff97, 0xab9423a7, 0xfc93a039, 0x655b59c3, 0x8f0ccc92, 0xffeff47d, 0x85845dd1,
  0x6fa87e4f, 0xfe2ce6e0, 0xa3014314, 0x4e0811a1, 0xf7537e82, 0xbd3af235, 0x2ad7d2bb, 0xeb86d391]

/-- The word at index `i` of a block, least significant byte first. -/
def wordAt (block : List Byte) (i : Nat) : Word :=
  (block.getD (4 * i + 3) 0 ++ block.getD (4 * i + 2) 0 ++ block.getD (4 * i + 1) 0 ++ block.getD (4 * i) 0).cast Fips180.four_bytes

/-- The bytes of a word in memory, which is how a digest is read. -/
def wordBytes (w : Word) : List Byte := [w.setWidth 8, (w >>> 8).setWidth 8, (w >>> 16).setWidth 8, (w >>> 24).setWidth 8]

def Words.bytes (w : Words) : List Byte := wordBytes w.a ++ wordBytes w.b ++ wordBytes w.c ++ wordBytes w.d

/-- One of the four rounds: step `i` takes the word of the block that `index` says. -/
def round (f : Word → Word → Word → Word) (s : List Nat) (index : Nat → Nat) (first : Nat) (block : List Byte) (v : Words) : Words :=
  (List.range 16).foldl (fun v i =>
    let tmp := v.a + f v.b v.c v.d + wordAt block (index i) + T.getD (i + first) 0
    let tmp := rotateLeft tmp (s.getD (i % 4) 0)
    ⟨v.d, tmp + v.b, v.b, v.c⟩) v

/-- `md5_transform` -/
def md5Transform (state : Words) (block : List Byte) : Words :=
  let v := round F s1 (fun i => i) 0 block state
  let v := round G s2 (fun i => (1 + 5 * i) % 16) 16 block v
  let v := round H s3 (fun i => (5 + 3 * i) % 16) 32 block v
  let v := round I s4 (fun i => 7 * i % 16) 48 block v
  ⟨state.a + v.a, state.b + v.b, state.c + v.c, state.d + v.d⟩

/-! ## The digest of a message -/

/-- The length in bits, least significant byte first. -/
def lengthBytes (bits : Nat) : List Byte := wordBytes (BitVec.ofNat 32 bits) ++ wordBytes (BitVec.ofNat 32 (bits / 2 ^ 32))

/-- A one bit, the fewest zero bits that make the result sixty-four bits short of a block, and the length in bits. -/
def pad (m : List Byte) : List Byte := m ++ (0x80#8 :: List.replicate ((119 - m.length % 64) % 64) 0#8 ++ lengthBytes (8 * m.length))

def digest (m : List Byte) : Words := BlockHash.absorb 64 md5Transform initstate (pad m)

theorem Words.bytes_length (w : Words) : w.bytes.length = 16 := rfl

example : (digest [0x61, 0x62, 0x63]).bytes =
    [0x90, 0x01, 0x50, 0x98, 0x3c, 0xd2, 0x4f, 0xb0, 0xd6, 0x96, 0x3f, 0x7d, 0x28, 0xe1, 0x7f, 0x72] := by decide +kernel

end TrustedGrub.Md5
