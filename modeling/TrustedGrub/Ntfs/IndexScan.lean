import TrustedGrub.Disk.BlockName
import TrustedGrub.Lib.Loop
import TrustedGrub.Ntfs.Hostile

/-!
# The search of an NTFS directory

The part of `ntfs_dir` that looks for a name in one directory, with nothing to be completed: first in the index root, then
in the records of the index allocation, as the bitmap says which of them are in use.
-/

namespace TrustedGrub.Ntfs
open Disk (GrubError)
open Fips180 (Byte)
open Loop (Body Flow run)

/-- An attribute, and what `read_attribute` delivers of it: some of its bytes, or nothing, with an error or without one. -/
structure Attribute where
  bytes : List Byte
  read : Nat → Nat → Except GrubError (List Byte)

/-- `attr_size` -/
def Attribute.size (a : Attribute) : Nat := a.bytes.length

/-- What `search_attribute` finds for a directory, each under the name `$I30`. -/
structure Directory where
  blocksize : BitVec 16
  indexRoot : Option Attribute
  bitmap : Option Attribute
  indexAllocation : Option Attribute

/-- `MAX_INDEX_BITMAP_SIZE` -/
def maxIndexBitmapSize : Nat := 4096

/-- The number that "INDX" is. -/
def indx : Nat := 0x58444E49

/-- A buffer after bytes have been read into it. -/
def overlay (bytes : List Byte) (buf : Mem) : Mem := fun i => bytes.getD i (buf i)

/-- `read_attribute`, where nothing is done about a failure. -/
def Attribute.readInto (a : Attribute) (len : Nat) (buf : Mem) : Mem :=
  match a.read 0 len with
  | .ok bytes => overlay bytes buf
  | .error _ => buf

/-- `grub_tolower` -/
def tolower (c : Byte) : Byte := if 0x41 ≤ c.toNat ∧ c.toNat ≤ 0x5A then c + 0x20 else c

/-- `nsubstring` -/
def nsubstring : List Byte → List Byte → Int
  | [], [] => 0
  | [], _ :: _ => -1
  | _ :: _, [] => 1
  | a :: s1, b :: s2 => if tolower a = tolower b then nsubstring s1 s2 else 1

/-- What stands for a character of a name in `fnbuf`. -/
def nameChar (c : Nat) : Byte := if c = 0x20 ∨ 0x100 ≤ c then 0x5F else BitVec.ofNat 8 c

/-- The name of the entry at `entry`, as the string in `fnbuf`. -/
def entryName (buf : Mem) (entry : Nat) : List Byte :=
  ((List.range (buf (entry + 0x50)).toNat).map fun i => nameChar (leValue buf (entry + 0x52 + 2 * i) 2)).takeWhile (· ≠ 0)

/-- `*(__u16 *)(entry+8)` -/
def entryLength (buf : Mem) (entry : Nat) : Nat := leValue buf (entry + 8) 2

/-- The bit that is tested for a record. -/
def tested (bitmap : Mem) (recordOffset : Nat) : Bool := (bitmap (recordOffset >>> 3)).getLsbD (recordOffset &&& 3)

/-- The loops over `record_offset`: the next record from one on, or that there is none. -/
def nextRecord (size : Int) (attrSize : Nat) (bitmap : Mem) : Nat → Nat → Option (Option Nat)
  | 0, _ => none
  | fuel + 1, recordOffset =>
    if recordOffset * size < attrSize then
      if tested bitmap recordOffset then some (some recordOffset) else nextRecord size attrSize bitmap fuel (recordOffset + 1)
    else some none

/-- How the search ends: `path_ino[depth+1]`, or the error. -/
inductive Outcome where
  | found (ino : Int)
  | failed (errnum : GrubError)
  deriving DecidableEq

/-- The locals of the search. There is no `recordOffset` where it is -1. -/
structure Cursor where
  indexData : Mem
  indexEntry : Nat
  indexEnd : Int
  recordOffset : Option Nat
  chkSfn : Int

/-- Where the search has been: the entries that were taken for one, by record. No code reads this: it is the history. -/
structure History where
  left : List (Option Nat × List Nat)
  node : Option Nat
  entries : List Nat

def History.all (h : History) : List (Option Nat × List Nat) := h.left ++ [(h.node, h.entries)]

def History.enter (h : History) (recordOffset : Nat) : History := ⟨h.all, some recordOffset, []⟩

def History.see (h : History) (entry : Nat) : History := { h with entries := h.entries ++ [entry] }

/-- What is done with an entry. -/
def examine (dirname : List Byte) (entry : Nat) (c : Cursor) (h : History) : Flow Cursor History Outcome :=
  let ino := signedValue c.indexData entry 4
  if ino < 16 then
    -- `continue` goes on to the test of what the last name came to
    if c.chkSfn ≠ 0 then .next c (h.see entry) else .done (.found ino) (h.see entry)
  else
    let chkSfn := nsubstring dirname (entryName c.indexData entry)
    if chkSfn ≠ 0 then .next { c with chkSfn } (h.see entry) else .done (.found ino) (h.see entry)

/-- An entry that ends the search of its record. -/
def Cursor.Ends (c : Cursor) (entry : Nat) : Prop :=
  entry + entryLength c.indexData entry ≤ entry + 0x50 ∨ c.indexEnd ≤ entry ∨ c.indexEnd ≤ entry + entryLength c.indexData entry ∨
    (c.indexData (entry + 0x12)).getLsbD 1

instance (c : Cursor) (entry : Nat) : Decidable (c.Ends entry) := inferInstanceAs (Decidable (_ ∨ _))

/-- A pass of the search. -/
def scanPass (blocksize : BitVec 16) (alloc : Attribute) (size : Int) (bitmap : Mem) (dirname : List Byte) :
    Body Cursor History Outcome := fun fuel c h =>
  let entry := c.indexEntry
  if c.Ends entry then
    match c.recordOffset with
    | none => some (.done (.failed .fileNotFound) h)
    | some recordOffset =>
      match alloc.read (recordOffset * size).toNat size.toNat with
      | .error errnum => some (.done (.failed (if errnum = .none then .fileNotFound else errnum)) h)
      | .ok bytes =>
        let indexData := overlay bytes c.indexData
        match fixupRecord ((List.range size.toNat).map indexData) indx blocksize size with
        | none => none
        | some (false, _) => some (.done (.failed .fsysCorrupt) h)
        | some (true, fixed) =>
          let indexData := overlay fixed indexData
          let entry := 0x18 + leValue indexData 0x18 2
          match nextRecord size alloc.size bitmap fuel (recordOffset + 1) with
          | none => none
          | some recordOffset' =>
            some (examine dirname entry ⟨indexData, entry + entryLength indexData entry, size - 0x52, recordOffset', c.chkSfn⟩
              (h.enter recordOffset))
  else some (examine dirname entry { c with indexEntry := entry + entryLength c.indexData entry } h)

/-- What memory there is before the search: `fnbuf`, `index_data` and `bitmap_data`. -/
structure Buffers where
  fnbuf : Mem
  indexData : Mem
  bitmapData : Mem

/-- `my_index_record_size` -/
def myIndexRecordSize (root : Attribute) (b : Buffers) : Int := signedValue (root.readInto 16 b.fnbuf) 8 4

/-- Where the search starts. -/
def startCursor (root : Attribute) (recordOffset : Option Nat) (chkSfn : Int) (b : Buffers) : Cursor :=
  ⟨root.readInto root.size b.indexData, 0x20, root.size, recordOffset, chkSfn⟩

def noHistory : History := ⟨[], none, []⟩

/-- The search for `dirname`, from where the record of the directory has been read. -/
def searchDir (dir : Directory) (dirname : List Byte) (chkSfn : Int) (b : Buffers) (fuel : Nat) : Option (Outcome × History) :=
  match dir.indexRoot with
  | none => some (.failed .badFiletype, noHistory)
  | some root =>
    let size := myIndexRecordSize root b
    if maxIndexRecordSize < size then some (.failed .fsysCorrupt, noHistory)
    else if maxIndexRecordSize < root.size then some (.failed .fsysCorrupt, noHistory)
    else
      match dir.bitmap with
      | none => run (scanPass dir.blocksize root size b.bitmapData dirname) fuel (startCursor root none chkSfn b) noHistory
      | some bitmap =>
        if maxIndexBitmapSize < bitmap.size then some (.failed .fsysCorrupt, noHistory)
        else
          let bitmapData := bitmap.readInto bitmap.size b.bitmapData
          match dir.indexAllocation with
          | none => some (.failed .fsysCorrupt, noHistory)
          | some alloc =>
            match nextRecord size alloc.size bitmapData fuel 0 with
            | none => none
            | some recordOffset =>
              run (scanPass dir.blocksize alloc size bitmapData dirname) fuel (startCursor root recordOffset chkSfn b) noHistory

end TrustedGrub.Ntfs
