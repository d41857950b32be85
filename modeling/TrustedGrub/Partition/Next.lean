import TrustedGrub.Partition.Tables

/-!
# `next_partition`

The iterator of `disk_io.c` over the PC slices of a drive and the BSD partitions in
them. Its static chain, the variables that its callers hand it by address, is the record
`Cursor`.
-/

namespace TrustedGrub.Partition
open Disk (GrubError)

/-- `*partition`, `*type`, `*start`, `*len`, `*offset`, `*entry`, `*ext_offset` and
`buf`, and the global `bsd_evil_hack`. -/
structure Cursor where
  partition : Nat
  type : Nat
  start : Nat
  len : Nat
  offset : Nat
  entry : Int
  extOffset : Nat
  buf : Buffer
  bsdEvilHack : Nat

/-- The drive whose partitions are listed: its number, whether `current_drive` is the
network drive, and what `rawread` delivers of a sector. -/
structure Drive where
  drive : Nat
  network : Bool
  rawread : Nat → Except GrubError Buffer

/-- `drive & 0x80`. -/
def Drive.hard (d : Drive) : Bool := d.drive &&& 0x80 ≠ 0

/-- The first BSD partition in use from number `first` on. -/
def firstBsd (table : Buffer) (nparts first : Nat) : Option Nat :=
  (List.range' first (nparts - first)).find? fun i => bsdPartType table i ≠ 0

/-- The cursor at BSD partition `i` of `table`, the label of the slice that it is at. -/
def Cursor.atBsd (c : Cursor) (d : Drive) (table : Buffer) (i : Nat) : Cursor :=
  { c with
    type := bsdPartType table i <<< 8 ||| c.type &&& 0xFF
    start := bsdPartStart table i
    len := bsdPartLength table i
    partition := c.partition &&& 0xFF00FF ||| i <<< 8
    bsdEvilHack := if d.hard ∧ bsdLabelDtype c.buf = dtypeScsi then 4 else c.bsdEvilHack }

/-- The loop of `next_bsd_partition` behind its label, which is in `buf` now. The table is
read past the end of the sector if the label says so. -/
def searchBsd (d : Drive) (beyond : Buffer) (c : Cursor) (first : Nat) : Except GrubError Cursor :=
  match firstBsd (withBeyond c.buf beyond) (bsdLabelNparts c.buf) first with
  | some i => .ok (c.atBsd d (withBeyond c.buf beyond) i)
  | none => .error .noPart

def nextBsdPartition (d : Drive) (beyond : Buffer) (c : Cursor) : Except GrubError Cursor :=
  if bsdPartNo c.partition = 0xFF then
    if c.len < bsdLabelSector + 1 then .error .badPartTable
    else
      match d.rawread ((c.start + bsdLabelSector) % 2 ^ 32) with
      | .error err => .error err
      | .ok buf => if bsdLabelCheckMag buf then searchBsd d beyond { c with buf := buf } 0 else .error .badPartTable
  else searchBsd d beyond c (bsdPartNo c.partition + 1)

/-- `pc_slice_no`, -1 if this is the first time. -/
def Cursor.pcSliceNo (c : Cursor) : Int := if sliceNo c.partition = 0xFF then -1 else sliceNo c.partition

/-- The variables, set up if this is the first time. -/
def Cursor.begun (c : Cursor) : Cursor :=
  if sliceNo c.partition = 0xFF then { c with offset := 0, extOffset := 0, entry := -1 } else c

/-- The entry through which the chain of tables goes on. -/
def extendedEntry (mbr : Buffer) : Option Nat :=
  (List.range pcSliceMax).find? fun i => isPcSliceTypeExtended (pcSliceType mbr i)

/-- Before the first entry of the table that entry `i` of `buf` refers to. -/
def Cursor.linked (c : Cursor) (buf : Buffer) (i : Nat) : Cursor :=
  let offset := (c.extOffset + pcSliceStart buf i) % 2 ^ 32
  { c with
    buf := buf
    offset := offset
    extOffset := if c.extOffset = 0 then offset else c.extOffset
    entry := -1 }

/-- Any entry of type 0 or of an extended partition is numbered as the one before it, but
not while the number is below `PC_SLICE_MAX`. -/
def numbered (pcSliceNo : Int) (type : Nat) : Int :=
  if pcSliceNo < pcSliceMax ∨ (¬ isPcSliceTypeExtended type ∧ type ≠ pcSliceTypeNone) then pcSliceNo + 1 else pcSliceNo

/-- The cursor at the next entry of `buf`. -/
def Cursor.entered (c : Cursor) (pcSliceNo : Int) (buf : Buffer) : Cursor :=
  let entry := (c.entry + 1).toNat
  { c with
    buf := buf
    entry := c.entry + 1
    type := pcSliceType buf entry
    start := (c.offset + pcSliceStart buf entry) % 2 ^ 32
    len := pcSliceLength buf entry
    partition := (numbered pcSliceNo (pcSliceType buf entry)).toNat <<< 16 ||| 0xFFFF }

/-- `next_pc_slice`, given the function that it calls when it moves on to the next
table. -/
def nextPcSliceFrom (restart : Cursor → Except GrubError Cursor) (d : Drive) (c : Cursor) : Except GrubError Cursor :=
  match d.rawread c.begun.offset with
  | .error err => .error err
  | .ok buf =>
    if ¬ pcMbrCheckSig buf then .error .badPartTable
    else if c.begun.entry + 1 = pcSliceMax then
      match extendedEntry buf with
      | some i => restart (c.begun.linked buf i)
      | none => .error .noPart
    else .ok (c.begun.entered c.pcSliceNo buf)

/-- The function calls itself at most once, at the start of a table. -/
def nextPcSlice (d : Drive) : Cursor → Except GrubError Cursor :=
  nextPcSliceFrom (nextPcSliceFrom (fun _ => .error .noPart) d) d

/-- Another table starts before its first entry, where there is no call. -/
theorem nextPcSliceFrom_start {restart restart' : Cursor → Except GrubError Cursor} (d : Drive) {c : Cursor} (h : c.entry = -1) :
    nextPcSliceFrom restart d c = nextPcSliceFrom restart' d c := by
  have hentry : c.begun.entry + 1 ≠ pcSliceMax := by
    unfold Cursor.begun
    split <;> simp [h, pcSliceMax]
  unfold nextPcSliceFrom
  simp only [if_neg hentry]

/-- The recursion of the source. -/
theorem nextPcSlice_eq (d : Drive) (c : Cursor) : nextPcSlice d c = nextPcSliceFrom (nextPcSlice d) d c := by
  have hrestart (buf : Buffer) (i : Nat) :
      nextPcSliceFrom (fun _ => .error .noPart) d (c.begun.linked buf i) = nextPcSlice d (c.begun.linked buf i) :=
    nextPcSliceFrom_start d rfl
  rw [nextPcSlice, nextPcSliceFrom, nextPcSliceFrom]
  simp only [hrestart]
  rfl

/-- The slice, or the whole of a floppy disk, may hold BSD partitions. -/
def Cursor.scans (c : Cursor) (d : Drive) : Prop :=
  (c.partition ≠ 0xFFFFFF ∧ isPcSliceTypeBsd (c.type &&& 0xFF)) ∨ ¬ d.hard

instance (c : Cursor) (d : Drive) : Decidable (c.scans d) := inferInstanceAs (Decidable (_ ∨ _))

/-- `if (*type == PC_SLICE_TYPE_NONE) *type = PC_SLICE_TYPE_FREEBSD;` -/
def Cursor.typed (c : Cursor) : Cursor := if c.type = pcSliceTypeNone then { c with type := pcSliceTypeFreebsd } else c

/-- The destination is a BSD partition of this slice, or of any. -/
def Cursor.sought (c : Cursor) (dest : Nat) : Prop :=
  dest &&& 0xFF00 ≠ 0xFF00 ∧ (dest &&& 0xFF0000 = 0xFF0000 ∨ dest &&& 0xFF0000 = c.partition &&& 0xFF0000)

instance (c : Cursor) (dest : Nat) : Decidable (c.sought dest) := inferInstanceAs (Decidable (_ ∧ _))

/-- `next_partition`: 0 is an error, which need not be in `errnum` on the network drive.
What `beyond` holds is not known, and may differ at each call. -/
def nextPartition (d : Drive) (dest : Nat) (beyond : Buffer) (c : Cursor) : Except GrubError Cursor :=
  if d.network then .error .none
  else if c.scans d then
    match nextBsdPartition d beyond c.typed with
    | .ok c' => .ok c'
    | .error err => if c.typed.sought dest then .error err else nextPcSlice d c.typed
  else nextPcSlice d c

end TrustedGrub.Partition
