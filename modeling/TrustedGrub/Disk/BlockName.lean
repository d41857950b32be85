import TrustedGrub.Lib.Memory
import TrustedGrub.Sha1.Context

/-!
# Block-list names

The error codes of `shared.h`, the number parser of `char_io.c`, and the parser in
`grub_open` for names such as `0+1,4+2`, which give the sectors of a file instead of
a path to it.
-/

namespace TrustedGrub.Disk
open Fips180 (Byte)

/-- `grub_error_t`, in the order of `shared.h`. -/
inductive GrubError where
  | none | badFilename | badFiletype | badGzipData | badGzipHeader | badPartTable | badVersion | below1mb
  | bootCommand | bootFailure | bootFeatures | devFormat | devValues | execFormat | filelength | fileNotFound
  | fsysCorrupt | fsysMount | geom | needLxKernel | needMbKernel | noDisk | noPart | numberParsing | outsidePart
  | read | symlinkLoop | unrecognized | wontFit | write | badArgument | unaligned | privileged | devNeedInit
  | noDiskSpace | numberOverflow | badmodaddr
  deriving DecidableEq, Repr

theorem GrubError.read_ne_none : GrubError.read ≠ .none := by decide

def sectorSize : Nat := 512

def isspace (c : Byte) : Bool := c = 0x20 ∨ c = 0x09 ∨ c = 0x0D ∨ c = 0x0A

/-- The value of a digit, to base 10 or 16. -/
def digitOf (mult : Nat) (c : Byte) : Option Nat :=
  if 0x30 ≤ c.toNat ∧ c.toNat ≤ 0x39 then some (c.toNat - 0x30)
  else if mult = 16 ∧ 0x61 ≤ c.toNat ∧ c.toNat ≤ 0x66 then some (c.toNat - 0x61 + 10)
  else if mult = 16 ∧ 0x41 ≤ c.toNat ∧ c.toNat ≤ 0x46 then some (c.toNat - 0x41 + 10)
  else none

/-- The digit loop of `safe_parse_maxint`. -/
def parseDigits (mult : Nat) : List Byte → Nat → Bool → Except GrubError (Nat × List Byte)
  | [], myint, found => if found then .ok (myint, []) else .error .numberParsing
  | c :: ptr, myint, found =>
    match digitOf mult c with
    | none => if found then .ok (myint, c :: ptr) else .error .numberParsing
    | some digit =>
      if (0x7FFFFFFF - digit) / mult < myint then .error .numberOverflow
      else parseDigits mult ptr (myint * mult + digit) true

/-- `safe_parse_maxint`: the number and the text behind it. -/
def safeParseMaxint : List Byte → Except GrubError (Nat × List Byte)
  | 0x30 :: c :: ptr => if c = 0x78 ∨ c = 0x58 then parseDigits 16 ptr 0 false else parseDigits 10 (0x30 :: c :: ptr) 0 false
  | ptr => parseDigits 10 ptr 0 false

/-- What the block-list loop leaves: whether it overwrote the file system's buffer,
the list, the size, the text behind the list, and whether that is well formed. -/
structure BlockName where
  overwrites : Bool
  list : List (Nat × Nat)
  filemax : Nat
  ptr : List Byte
  ok : Bool

/-- The name ends, or goes on with one of the characters `ends`. -/
def endsAt (ends : Byte → Bool) : List Byte → Bool
  | [] => true
  | c :: _ => ends c

/-- The loop over the entries `start+count`, the last of which may be a mere size. -/
def parseBlocks : Nat → BlockName → BlockName
  | 0, name => name
  | fuel + 1, name =>
    let (tmp, ptr) := (safeParseMaxint name.ptr).toOption.getD (0, name.ptr)
    match ptr with
    | 0x2B :: ptr' =>
      let name := { name with overwrites := true }
      match safeParseMaxint ptr' with
      | .error _ => { name with ptr := ptr', ok := false }
      | .ok (count, ptr'') =>
        if count = 0 ∨ ¬ endsAt (fun c => c = 0x2C ∨ c = 0x2F ∨ isspace c) ptr'' then { name with ptr := ptr'', ok := false }
        else
          let name := { name with
            list := name.list ++ [(tmp, count)]
            filemax := name.filemax + count * sectorSize
            ptr := ptr'' }
          match ptr'' with
          | 0x2C :: ptr''' => parseBlocks fuel { name with ptr := ptr''' }
          | _ => { name with ok := true }
    | _ =>
      if ¬ endsAt (fun c => c = 0x2F ∨ isspace c) ptr ∨ tmp = 0 ∨ name.filemax < tmp then { name with ptr := ptr, ok := false }
      else { name with ptr := ptr, filemax := tmp, ok := true }

def blockName (filename : List Byte) : BlockName :=
  parseBlocks (filename.length + 1) ⟨false, [], 0, filename, false⟩

/-- A name whose block list, if it is one, denotes a size that an `int` holds. Adding
up a larger one overflows, which C leaves undefined. -/
structure DiskName where
  chars : List Byte
  fits : (blockName chars).filemax ≤ 0x7FFFFFFF

end TrustedGrub.Disk
