import TrustedGrub.Ext2.Dir

/-!
# Directories of a FAT file system

`fat_dir` of `fsys_fat.c`: the way down the path, and the loop over the entries of a directory,
with the long name that is put together from the entries before a short one. A directory is the list
of the entries that `fat_read` delivers.
-/

namespace TrustedGrub.Fat
open Fips180 (Byte)
open Disk (GrubError isspace)
open Ext2 (substring)
open Memory (slice store)

/-! ## Entries -/

/-- `dir_buf`. -/
abbrev DirBuf := Nat → Byte

namespace DirBuf

def attrib (e : DirBuf) : Byte := e 11

/-- `FAT_DIRENTRY_VALID`. -/
def Valid (e : DirBuf) : Prop := e 0 ≠ 0 ∧ e 0 ≠ 0xE5 ∧ e.attrib &&& 0xC8 = 0

/-- The entry holds a piece of a long name. -/
def Long (e : DirBuf) : Prop := e.attrib = 0x0F

instance (e : DirBuf) : Decidable e.Valid := inferInstanceAs (Decidable (_ ∧ _ ∧ _))

instance (e : DirBuf) : Decidable e.Long := inferInstanceAs (Decidable (_ = _))

def firstCluster (e : DirBuf) : Nat := (e 26).toNat + 0x100 * (e 27).toNat + 0x10000 * ((e 20).toNat + 0x100 * (e 21).toNat)

def filelength (e : DirBuf) : Nat := (e 28).toNat + 0x100 * (e 29).toNat + 0x10000 * ((e 30).toNat + 0x100 * (e 31).toNat)

/-- `FAT_LONGDIR_ID`. -/
def id (e : DirBuf) : Nat := (e 0).toNat

/-- `FAT_LONGDIR_ALIASCHECKSUM`. -/
def aliasChecksum (e : DirBuf) : Nat := (e 13).toNat

/-- `longdir_pos`. -/
def longdirPos : List Nat := [1, 3, 5, 7, 9, 14, 16, 18, 20, 22, 24, 28, 30]

/-- The characters of a piece, without their high bytes. -/
def piece (e : DirBuf) : List Byte := longdirPos.map e

/-- The checksum of a short name. -/
def sum (e : DirBuf) : Byte := (List.range 11).foldl (fun sum i => ((sum >>> (1 : Nat)) ||| (sum <<< (7 : Nat))) + e i) 0

end DirBuf

/-- `tolower`. -/
def tolower (c : Byte) : Byte := if 0x41 ≤ c ∧ c ≤ 0x5A then c + 0x20 else c

/-- The part of a short name before a blank. -/
def namePart (e : DirBuf) (start len : Nat) : List Byte := ((slice e start len).map tolower).takeWhile fun c => c ≠ 0 ∧ ¬ isspace c

/-- The 8.3 form of a name. -/
def DirBuf.shortName (e : DirBuf) : List Byte :=
  if namePart e 8 3 = [] then namePart e 0 8 else namePart e 0 8 ++ 0x2E :: namePart e 8 3

/-- What is stored for it. Without an extension, its first character stays behind the end. -/
def DirBuf.shortBytes (e : DirBuf) : List Byte :=
  namePart e 0 8 ++ if namePart e 8 3 = [] then [0, tolower (e 8)] else 0x2E :: namePart e 8 3 ++ [0]

/-! ## The loop over the entries -/

/-- The size of `NAME_BUF`. -/
def nameBufLen : Nat := 833

/-- `slot`, `alias_checksum`, and the buffer of the name. -/
structure Run where
  slot : Int
  aliasChecksum : Int
  filename : Nat → Byte

def Run.start (filename : Nat → Byte) : Run := ⟨-2, -1, filename⟩

/-- The string in the buffer. -/
def Run.name (r : Run) : List Byte := (slice r.filename 0 nameBufLen).takeWhile fun c => c ≠ 0

/-- The first entry, with the last part, starts a long name. -/
def Run.begin (r : Run) (e : DirBuf) : Run :=
  ⟨(e.id &&& 0x3f : Nat), e.aliasChecksum, store r.filename ((e.id &&& 0x3f) * 13) [0]⟩

/-- A piece of a long name, with its number. -/
def Run.add (r : Run) (e : DirBuf) (id : Nat) : Run :=
  if (id : Int) ≠ r.slot ∨ r.slot = 0 ∨ r.aliasChecksum ≠ e.aliasChecksum then { r with aliasChecksum := -1 }
  else { r with slot := r.slot - 1, filename := store r.filename ((r.slot - 1).toNat * 13) e.piece }

/-- An entry of a long name. -/
def Run.long (r : Run) (e : DirBuf) : Run :=
  if e.id &&& 0x40 ≠ 0 then (r.begin e).add e (e.id &&& 0x3f) else r.add e e.id

/-- The long name is complete. -/
def Run.Complete (r : Run) : Prop := r.aliasChecksum ≠ -1 ∧ r.slot = 0

instance (r : Run) : Decidable r.Complete := inferInstanceAs (Decidable (_ ∧ _))

/-- The long name that a short entry is compared with. -/
def Run.longName (r : Run) (e : DirBuf) : Option (List Byte) :=
  if r.Complete ∧ (e.sum.toNat : Int) = r.aliasChecksum then some r.name else none

/-- The comparison of a component with that name. -/
def Run.matchesLong (r : Run) (dirname : List Byte) (e : DirBuf) : Bool := (r.longName e).any fun name => substring dirname name = 0

/-- A complete name is used once. -/
def Run.used (r : Run) : Run := if r.Complete then { r with slot := -2 } else r

/-- The 8.3 form goes to the same buffer. -/
def Run.short (r : Run) (e : DirBuf) : Run := { r with filename := store r.filename 0 e.shortBytes }

/-- One pass of the loop, for an entry that is not the end of the directory: whether the entry is the
one wanted. -/
def Run.look (r : Run) (dirname : List Byte) (e : DirBuf) : Bool × Run :=
  if e.Long then (false, r.long e)
  else if ¬ e.Valid then (false, r)
  else if r.matchesLong dirname e then (true, r.used)
  else (substring dirname e.shortName = 0, r.used.short e)

/-- The loop: the entry that is wanted. -/
def findEntry (dirname : List Byte) : List DirBuf → Run → Option (DirBuf × Run)
  | [], _ => none
  | e :: es, r =>
    if e 0 = 0 then none
    else
      let (found, r) := r.look dirname e
      if found then some (e, r) else findEntry dirname es r

/-! ## The path -/

/-- The variables of `fat_dir` and of the file that it has reached. -/
structure Place where
  attrib : Byte
  fileCluster : Nat
  filemax : Nat
  run : Run

def Place.isDir (p : Place) : Bool := p.attrib &&& 0x10 ≠ 0

/-- `fat_dir`, where no completions are printed: the error, or the file. -/
def fatDir (dirs : Nat → List DirBuf) : Nat → List Byte → Place → Option (Except GrubError Place)
  | 0, _, _ => none
  | fuel + 1, dirname, p =>
    if dirname = [] ∨ isspace (dirname.headD 0) then some (if p.isDir then .error .badFiletype else .ok p)
    else if ¬ p.isDir then some (.error .badFiletype)
    else
      let dirname := dirname.dropWhile (· = 0x2F)
      let name := dirname.takeWhile fun c => !isspace c && c ≠ 0x2F
      match findEntry name (dirs p.fileCluster) p.run with
      | none => some (.error .fileNotFound)
      | some (e, run) => fatDir dirs fuel (dirname.drop name.length) ⟨e.attrib, e.firstCluster, e.filelength, run⟩

end TrustedGrub.Fat
