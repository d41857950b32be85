import TrustedGrub.Drive.Bios
import TrustedGrub.Partition.DeviceName

/-!
# `savedefault`

`savedefault_func` reads ten bytes of the default file to learn where they lie on the disk, and writes the
number of an entry there. `cmain` reads them at the next boot. The functions that reach the file and
the disk are parameters.
-/

namespace TrustedGrub.Builtins
open Fips180 (Byte)
open Disk (GrubError sectorSize safeParseMaxint)
open Drive (unsigned)
open Memory (slice)
open TrustedGrub.Partition (convertToAscii)

/-! ## What is called -/

/-- What the hook is told: bytes of a sector. -/
structure Piece where
  sector : Int
  offset : Int
  length : Int

/-- The file `default` and the drive that it is on. -/
structure Machine (σ : Type) where
  grubOpen : σ → Except GrubError Unit × σ
  /-- `grub_read` of ten bytes, and what it tells the hook. -/
  grubRead : σ → List Byte × List Piece × σ
  rawread : Int → σ → Except GrubError (Nat → Byte) × σ
  rawwrite : Int → (Nat → Byte) → σ → Except GrubError Unit × σ
  /-- `buf_track = -1` -/
  clearCache : σ → σ

/-! ## The entry number -/

/-- The globals that the entry number comes from. -/
structure Entries where
  currentEntryno : Nat
  fallbackEntries : List Int

/-- The fallback entry behind the current one, or the first one. -/
def Entries.nextFallback (g : Entries) : Except GrubError Nat :=
  let index := ((g.fallbackEntries.takeWhile (0 ≤ ·)).findIdx? (· = (g.currentEntryno : Int))).elim 0 (· + 1)
  match g.fallbackEntries[index]? with
  | some entryno => if entryno < 0 then .error .badArgument else .ok entryno.toNat
  | none => .error .badArgument

/-- `fallback` -/
def fallbackText : List Byte := [0x66, 0x61, 0x6C, 0x6C, 0x62, 0x61, 0x63, 0x6B]

/-- `entryno` -/
def Entries.entryno (g : Entries) (arg : List Byte) : Except GrubError Nat :=
  if arg = [] then .ok g.currentEntryno
  else if fallbackText <+: arg then g.nextFallback
  else (safeParseMaxint arg).map Prod.fst

/-! ## The hook -/

/-- `sector_count`, and the two elements of `saved_sectors`, `saved_offsets` and `saved_lengths`. -/
structure Saved where
  sectorCount : Nat
  first : Piece
  second : Piece

/-- `disk_read_savesect_func` -/
def Saved.savesect (s : Saved) (p : Piece) : Saved :=
  match s.sectorCount with
  | 0 => { s with sectorCount := 1, first := p }
  | 1 => { s with sectorCount := 2, second := p }
  | n + 2 => { s with sectorCount := n + 3 }

/-- The variables before the file is read: the arrays hold what the stack held. -/
def Saved.start (first second : Piece) : Saved := ⟨0, first, second⟩

/-! ## The buffers -/

/-- The size of `buf`. -/
def recordLen : Nat := 10

/-- What `grub_sprintf` writes for `%d`. -/
def sprintfEntryno (entryno : Nat) : List Byte := convertToAscii entryno ++ [0]

/-- `buf`, after `grub_memset` and `grub_sprintf`. -/
def record (entryno : Nat) : List Byte := (sprintfEntryno entryno ++ List.replicate recordLen 0x0A).take recordLen

/-- `grub_memmove (sect + offset, bytes, length)`, as far as it is in `sect`. -/
def patch (sect : Nat → Byte) (offset : Int) (bytes : List Byte) : Nat → Byte := fun i =>
  if offset ≤ i ∧ i < sectorSize then (bytes[((i : Int) - offset).toNat]?).getD (sect i) else sect i

/-- The bytes lie in `sect`. -/
def InSect (offset : Int) (bytes : List Byte) : Prop := 0 ≤ offset ∧ offset + bytes.length ≤ sectorSize

instance (offset : Int) (bytes : List Byte) : Decidable (InSect offset bytes) := inferInstanceAs (Decidable (_ ∧ _))

/-! ## The function -/

/-- What a call of `savedefault` comes to: what it returns, the sectors given to `rawwrite`, and whether
a store has left a local buffer. -/
structure Outcome (σ : Type) where
  answer : Except GrubError Unit
  written : List Int
  escaped : Bool
  state : σ

section Function
variable {σ : Type} (m : Machine σ)

/-- A sector is read, changed and written back. -/
def updateSector (sector offset : Int) (bytes : List Byte) (st : σ) : Outcome σ :=
  match m.rawread sector st with
  | (.error err, st) => ⟨.error err, [], false, st⟩
  | (.ok sect, st) =>
    let (answer, st) := m.rawwrite sector (patch sect offset bytes) st
    ⟨answer, [sector], ¬ InSect offset bytes, st⟩

/-- The record is written where the hook has been told. -/
def storeRecord (s : Saved) (buf : List Byte) (st : σ) : Outcome σ :=
  if unsigned s.first.length < recordLen then
    -- The first few bytes are spanned in two sectors.
    let len := unsigned s.first.length
    let r := updateSector m s.first.sector s.first.offset (buf.take len) st
    match r.answer with
    | .error _ => r
    | .ok () =>
      let r' := updateSector m s.second.sector s.second.offset (buf.drop len) r.state
      ⟨r'.answer, r.written ++ r'.written, r.escaped || r'.escaped, r'.state⟩
  else updateSector m s.first.sector s.first.offset buf st

/-- `savedefault_func`, from the entry number on. -/
def saveEntryno (stack : Saved) (entryno : Nat) (st : σ) : Outcome σ :=
  match m.grubOpen st with
  | (.error err, st) => ⟨.error err, [], false, st⟩
  | (.ok (), st) =>
    let (bytes, told, st) := m.grubRead st
    if bytes.length ≠ recordLen then ⟨.error .read, [], false, st⟩
    else
      let s := told.foldl Saved.savesect stack
      if 2 < s.sectorCount then ⟨.error .fsysCorrupt, [], false, st⟩
      else
        let r := storeRecord m s (record entryno) st
        { r with
          escaped := r.escaped || recordLen < (sprintfEntryno entryno).length
          state := if r.answer.toBool then m.clearCache r.state else r.state }

/-- `savedefault_func`. `script` is the flag `BUILTIN_SCRIPT`. -/
def savedefaultFunc (g : Entries) (first second : Piece) (arg : List Byte) (script : Bool) (st : σ) : Outcome σ :=
  if ¬ script then ⟨.error .unrecognized, [], false, st⟩
  else
    match g.entryno arg with
    | .error err => ⟨.error err, [], false, st⟩
    | .ok entryno => saveEntryno m (.start first second) entryno st

/-- `saved_entryno` in `cmain`, after the default file has been read to `buf`. -/
def savedEntryno (buf read : List Byte) : Nat :=
  if read.length = 0 then 0
  else
    let buf := (read ++ buf.drop read.length).set (recordLen - 1) 0
    (safeParseMaxint buf).toOption.elim 0 Prod.fst

/-- The default file in `cmain`. -/
def readDefault (buf : List Byte) (st : σ) : Nat :=
  match m.grubOpen st with
  | (.error _, _) => 0
  | (.ok (), st) => savedEntryno buf (m.grubRead st).1

end Function

end TrustedGrub.Builtins
