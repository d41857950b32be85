import TrustedGrub.Disk.Open

/-!
# Reading a file as it is stored

A working device serves the open file, through its driver or as a block list:
`raw_read` says what a read returns, where the position ends and what is measured.
`Holds` is the invariant that ties the state to the content of the file.
-/

namespace TrustedGrub.Disk
open Fips180 (Byte Word Words)
open Memory (segment slice store)

variable {σ ι : Type} {p : Platform σ ι}

/-! ## The content of a block list -/

/-- The bytes of the blocks in a list. -/
def blocksContent (part : Nat → Byte) (list : List (Nat × Nat)) : List Byte :=
  list.flatMap fun (start, length) => slice part (start * sectorSize) (length * sectorSize)

/-- The sectors in the first `l` entries. -/
def sectorsBefore (list : List (Nat × Nat)) (l : Nat) : Nat := ((list.take l).map Prod.snd).sum

/-- The cursor stands on the sector its position lies in. -/
structure Blocks.Cursor (b : Blocks) : Prop where
  nonempty : ∀ e ∈ b.list, 0 < e.2
  position : b.curFilepos / sectorSize = sectorsBefore b.list b.curBlklist + b.curBlknum
  within : b.curBlklist < b.list.length → b.curBlknum < (b.entry b.curBlklist).2
  atEnd : b.list.length ≤ b.curBlklist → b.curBlklist = b.list.length ∧ b.curBlknum = 0

theorem blocksContent_length (part : Nat → Byte) (list : List (Nat × Nat)) :
    (blocksContent part list).length = sectorsBefore list list.length * sectorSize := by
  induction list with
  | nil => rfl
  | cons e list ih =>
    simp only [blocksContent, List.flatMap_cons, List.length_append, Memory.slice_length, sectorsBefore,
      List.length_cons, List.take_succ_cons, List.map_cons, List.sum_cons, Nat.add_mul] at ih ⊢
    rw [ih]

theorem sectorsBefore_succ {list : List (Nat × Nat)} {l : Nat} (h : l < list.length) :
    sectorsBefore list (l + 1) = sectorsBefore list l + (list.getD l (0, 0)).2 := by
  simp only [sectorsBefore, List.take_add_one, List.getD, List.getElem?_eq_getElem h, Option.toList_some, List.map_append,
    List.map_cons, List.map_nil, List.sum_append, List.sum_cons, List.sum_nil, Nat.add_zero, Option.getD_some]

/-- What lies in one entry of the list lies in one piece in the partition. -/
theorem blocksContent_segment {part : Nat → Byte} {list : List (Nat × Nat)} {l j w n : Nat} (hl : l < list.length)
    (hn : j * sectorSize + w + n ≤ (list.getD l (0, 0)).2 * sectorSize) :
    segment (blocksContent part list) ((sectorsBefore list l + j) * sectorSize + w) n =
      slice part (((list.getD l (0, 0)).1 + j) * sectorSize + w) n := by
  have hsplit : list = list.take l ++ list.getD l (0, 0) :: list.drop (l + 1) := by
    rw [List.getD, List.getElem?_eq_getElem hl, Option.getD_some, ← List.drop_eq_getElem_cons hl, List.take_append_drop]
  have hbefore : (blocksContent part (list.take l)).length = sectorsBefore list l * sectorSize := by
    rw [blocksContent_length, sectorsBefore, List.take_length, sectorsBefore]
  have hcontent : blocksContent part list = blocksContent part (list.take l) ++
      (slice part ((list.getD l (0, 0)).1 * sectorSize) ((list.getD l (0, 0)).2 * sectorSize) ++
        blocksContent part (list.drop (l + 1))) := by
    conv_lhs => rw [hsplit]
    simp only [blocksContent, List.flatMap_append, List.flatMap_cons]
  obtain ⟨k, hk⟩ := Nat.exists_eq_add_of_le hn
  have hpos : (sectorsBefore list l + j) * sectorSize + w =
      (blocksContent part (list.take l)).length + (j * sectorSize + w) := by rw [hbefore]; ring
  have haddr : ((list.getD l (0, 0)).1 + j) * sectorSize + w =
      (list.getD l (0, 0)).1 * sectorSize + (j * sectorSize + w) := by ring
  rw [hcontent, hk, hpos, haddr, Memory.slice_add, Memory.slice_add]
  simp only [Memory.segment, List.append_assoc]
  rw [← List.drop_drop, List.drop_left', List.drop_left' (Memory.slice_length _ _ _), List.take_left' (Memory.slice_length _ _ _)]
  rfl

/-! ## Finding a block -/

theorem Blocks.nextSector_list (b : Blocks) : b.nextSector.list = b.list := by
  simp only [Blocks.nextSector]
  split <;> rfl

theorem Blocks.nextSector_curFilepos (b : Blocks) : b.nextSector.curFilepos = b.curFilepos + sectorSize := by
  simp only [Blocks.nextSector]
  split <;> rfl

/-- A cursor that stands on a sector of the list may pass it. -/
theorem Blocks.Cursor.nextSector {b : Blocks} (h : b.Cursor) (hl : b.curBlklist < b.list.length) : b.nextSector.Cursor := by
  have hin := h.within hl
  have hpos := h.position
  have hsucc := sectorsBefore_succ hl
  have hnext : (b.curFilepos + sectorSize) / sectorSize = b.curFilepos / sectorSize + 1 :=
    Nat.add_div_right _ (by decide)
  simp only [Blocks.entry] at hin
  by_cases hlast : (b.list.getD b.curBlklist (0, 0)).2 ≤ b.curBlknum + 1
  · have hb : b.nextSector = ⟨b.list, b.curFilepos + sectorSize, b.curBlklist + 1, 0⟩ := by
      simp only [Blocks.nextSector, Blocks.entry]
      exact if_pos hlast
    rw [hb]
    refine ⟨h.nonempty, by simp only; omega, fun hlt => ?_, fun hge => ⟨by simp only at hge ⊢; omega, rfl⟩⟩
    simp only [Blocks.entry, List.getD, List.getElem?_eq_getElem hlt, Option.getD_some]
    exact h.nonempty _ (List.getElem_mem hlt)
  · have hb : b.nextSector = ⟨b.list, b.curFilepos + sectorSize, b.curBlklist, b.curBlknum + 1⟩ := by
      simp only [Blocks.nextSector, Blocks.entry]
      exact if_neg hlast
    rw [hb]
    exact ⟨h.nonempty, by simp only; omega, fun _ => by simp only [Blocks.entry]; omega, fun hge => by simp only at hge; omega⟩

/-- The cursor of a position before the end stands on an entry of the list. -/
theorem Blocks.Cursor.inList {b : Blocks} (h : b.Cursor)
    (hend : b.curFilepos / sectorSize < sectorsBefore b.list b.list.length) : b.curBlklist < b.list.length := by
  by_contra hge
  obtain ⟨hl, hn⟩ := h.atEnd (Nat.le_of_not_lt hge)
  have hpos := h.position
  rw [hl, hn] at hpos
  omega

theorem Blocks.Cursor.runUp {filepos : Nat} (fuel : Nat) : ∀ {b : Blocks}, b.Cursor →
    b.curFilepos / sectorSize ≤ filepos / sectorSize → filepos / sectorSize - b.curFilepos / sectorSize + 1 < fuel →
    filepos / sectorSize < sectorsBefore b.list b.list.length →
    (b.runUp filepos fuel).Cursor ∧ (b.runUp filepos fuel).list = b.list ∧
      (b.runUp filepos fuel).curFilepos / sectorSize = filepos / sectorSize := by
  induction fuel with
  | zero => intro b _ _ hf; omega
  | succ fuel ih =>
    intro b h hle hf hend
    simp only [Blocks.runUp]
    split
    next hlt =>
      split
      next hfar =>
        have hcur := Blocks.nextSector_curFilepos b
        have hlist := Blocks.nextSector_list b
        have hdiv : b.nextSector.curFilepos / sectorSize = b.curFilepos / sectorSize + 1 := by
          rw [hcur]; exact Nat.add_div_right _ (by decide)
        simp only [sectorSize] at *
        have := ih (h.nextSector (h.inList (by simp only [sectorSize]; omega))) (by omega) (by omega) (by rw [hlist]; omega)
        rwa [hlist] at this
      next hnear =>
        -- the cursor lies in the sector of `filepos`
        have hsame : filepos / sectorSize = b.curFilepos / sectorSize := by simp only [sectorSize] at *; omega
        have hc : Blocks.Cursor { b with curFilepos := filepos } :=
          ⟨h.nonempty, by simp only [hsame]; exact h.position, h.within, h.atEnd⟩
        obtain ⟨fuel, rfl⟩ : ∃ k, fuel = k + 1 := ⟨fuel - 1, by omega⟩
        simp only [Blocks.runUp, Nat.lt_irrefl, if_false]
        exact ⟨hc, trivial, trivial⟩
    next hge => exact ⟨h, rfl, by simp only [sectorSize] at *; omega⟩

/-- Looking for a position before the end puts the cursor on its sector. -/
theorem Blocks.Cursor.find {b : Blocks} (h : b.Cursor) (filepos : Nat)
    (hend : filepos / sectorSize < sectorsBefore b.list b.list.length) :
    (b.find filepos).Cursor ∧ (b.find filepos).list = b.list ∧
      (b.find filepos).curFilepos / sectorSize = filepos / sectorSize := by
  simp only [Blocks.find]
  split
  next hback =>
    have hstart : Blocks.Cursor { b with curFilepos := 0, curBlklist := 0, curBlknum := 0 } := by
      refine ⟨h.nonempty, by simp [sectorsBefore], fun hl => ?_, fun hge => ⟨by simp only at hge ⊢; omega, rfl⟩⟩
      simp only [Blocks.entry, List.getD, List.getElem?_eq_getElem hl, Option.getD_some]
      exact h.nonempty _ (List.getElem_mem hl)
    exact hstart.runUp _ (by simp) (by simp) hend
  next hahead =>
    have hle : b.curFilepos / sectorSize ≤ filepos / sectorSize := Nat.div_le_div_right (Nat.le_of_not_lt hahead)
    exact h.runUp _ hle (by have := Nat.zero_le (b.curFilepos / sectorSize); omega) hend

/-! ## One read -/

/-- A block list holds the file `F`: the first bytes of its sectors. -/
structure Blocks.Hold (b : Blocks) (part : Nat → Byte) (F : List Byte) : Prop where
  cursor : b.Cursor
  content : F = (blocksContent part b.list).take F.length

/-- The open file, as it is stored, is `F`. -/
structure Stored (st : State σ ι) (F : List Byte) : Prop where
  blocks : st.blockFile = true → st.blocks.Hold st.part F
  driver : st.blockFile = false → st.mounted = true ∧ st.file.bytes = F

theorem Blocks.Hold.length_le {b : Blocks} {part : Nat → Byte} {F : List Byte} (h : b.Hold part F) :
    F.length ≤ sectorsBefore b.list b.list.length * sectorSize := by
  have := congrArg List.length h.content
  rw [List.length_take, blocksContent_length] at this
  omega

theorem Blocks.Hold.find {b : Blocks} {part : Nat → Byte} {F : List Byte} (h : b.Hold part F) (pos : Nat)
    (hend : pos < F.length) : (b.find pos).Hold part F ∧ (b.find pos).list = b.list ∧
      (b.find pos).curFilepos / sectorSize = pos / sectorSize := by
  have htotal := h.length_le
  obtain ⟨hc, hlist, hpos⟩ := h.cursor.find pos
    ((Nat.div_lt_iff_lt_mul (by decide)).2 (Nat.lt_of_lt_of_le hend htotal))
  exact ⟨⟨hc, by rw [hlist]; exact h.content⟩, hlist, hpos⟩

/-- What remains of an entry behind the cursor. -/
theorem entry_room {length num within : Nat} (hn : num < length) (hw : within < sectorSize) :
    0 < (length - num) * sectorSize - within ∧
      num * sectorSize + within + ((length - num) * sectorSize - within) = length * sectorSize := by
  obtain ⟨d, rfl⟩ := Nat.exists_eq_add_of_lt hn
  have hsub : num + d + 1 - num = d + 1 := by omega
  have hmul : (num + d + 1) * sectorSize = num * sectorSize + (d + 1) * sectorSize := by ring
  have hle : sectorSize ≤ (d + 1) * sectorSize := Nat.le_mul_of_pos_left _ (by omega)
  rw [hsub, hmul]
  omega

/-- With the cursor on the sector of `pos`, `devread` is asked for the next piece of the file. -/
theorem Blocks.Hold.piece {b : Blocks} {part : Nat → Byte} {F : List Byte} (h : b.Hold part F) {pos len : Nat}
    (hat : b.curFilepos / sectorSize = pos / sectorSize) (hlen : 0 < len) (hend : pos + len ≤ F.length) :
    0 < min (((b.entry b.curBlklist).2 - b.curBlknum) * sectorSize - pos % sectorSize) len ∧
      ∀ n ≤ min (((b.entry b.curBlklist).2 - b.curBlknum) * sectorSize - pos % sectorSize) len,
        slice part (((b.entry b.curBlklist).1 + b.curBlknum) * sectorSize + pos % sectorSize) n = segment F pos n := by
  have htotal := h.length_le
  have hl : b.curBlklist < b.list.length := h.cursor.inList (by
    rw [hat]
    exact (Nat.div_lt_iff_lt_mul (by decide)).2 (by omega))
  have hpos := h.cursor.position
  obtain ⟨hroom, hentry⟩ := entry_room (h.cursor.within hl) (Nat.mod_lt pos (by decide : 0 < sectorSize))
  refine ⟨by omega, fun n hn => ?_⟩
  have hplace : pos = (sectorsBefore b.list b.curBlklist + b.curBlknum) * sectorSize + pos % sectorSize := by
    rw [← hpos, hat, Nat.mul_comm]
    exact (Nat.div_add_mod pos sectorSize).symm
  have hfile : segment F pos n = segment (blocksContent part b.list) pos n := by
    rw [h.content, Memory.segment_take (by omega)]
  rw [hfile]
  conv_rhs => rw [hplace]
  exact (blocksContent_segment hl (by simp only [Blocks.entry] at hentry hn ⊢; omega)).symm

/-- The state after a device has served a read: its own state, the cursor, and the position. -/
def State.served (st : State σ ι) (driver : σ) (blocks : Blocks) (filepos : Int) : State σ ι :=
  { st with driver := driver, blocks := blocks, filepos := filepos }

/-- The block loop stores the bytes asked for. The induction is on the passes, of which
each stores at least one byte. -/
theorem blockLoop_healthy (hp : p.Healthy) (buf : Dest) {F : List Byte} (fuel : Nat) :
    ∀ (off len : Nat) (bytes : Nat → Byte) (st : State σ ι), len ≤ fuel → st.errnum = .none →
      st.blocks.Hold st.part F → 0 ≤ st.filepos → st.filepos + len ≤ F.length →
      ∃ driver blocks, blockLoop p buf fuel off len (bytes, st) =
          (store bytes off (segment F st.filepos.toNat len), st.served driver blocks (st.filepos + len)) ∧
        blocks.Hold st.part F ∧ blocks.list = st.blocks.list := by
  induction fuel with
  | zero =>
    intro off len bytes st hle _ hb _ _
    obtain rfl : len = 0 := by omega
    exact ⟨st.driver, st.blocks, by simp [blockLoop, State.served], hb, rfl⟩
  | succ fuel ih =>
    intro off len bytes st hle herr hb hpos hend
    by_cases hlen : 0 < len
    · obtain ⟨pos, hp'⟩ := Int.eq_ofNat_of_zero_le hpos
      have hnat : st.filepos.toNat = pos := by omega
      obtain ⟨hb', hlist, hat⟩ := hb.find pos (by omega)
      obtain ⟨hsize, hpiece⟩ := hb'.piece hat hlen (by omega)
      simp only [blockLoop, State.blockRequest, hlen, herr, and_self, if_true, hnat, Int.toNat_natCast]
      generalize hsz : min _ len = size at hsize hpiece ⊢
      have hle' : size ≤ len := by omega
      rw [hpiece size (Nat.le_refl _)]
      generalize hrq : (⟨_, size, buf.usable off size, GrubError.none⟩ : Request) = rq
      have hanswer : p.devread st.driver rq = (none, (p.devread st.driver rq).2) := Prod.ext (hp.devread _ _) rfl
      have hseg : ((st.filepos + (size : Int)).toNat) = pos + size := by omega
      rw [hanswer]
      obtain ⟨driver, blocks, heq, hhold, hlist'⟩ := ih
        (off + size) (len - size) (store bytes off (segment F pos size))
        (st.blockAnswered (st.blocks.find pos) size (none, (p.devread st.driver rq).2))
        (by omega) herr hb' (by simp only [State.blockAnswered]; omega)
        (by simp only [State.blockAnswered]; omega)
      refine ⟨driver, blocks, ?_, hhold, hlist'.trans hlist⟩
      have hlen' : size + (len - size) = len := by omega
      have hpos' : st.filepos + (size : Int) + ((len - size : Nat) : Int) = st.filepos + len := by omega
      simp only [access]
      rw [heq]
      simp only [State.blockAnswered, State.served, hseg, hpos']
      rw [Memory.store_segment_append _ _ (by omega), hlen']
    · obtain rfl : len = 0 := by omega
      exact ⟨st.driver, st.blocks, by simp [blockLoop, State.served], hb, rfl⟩

/-- The count of a read at `pos`: a negative or overlong request ends with the file. -/
def countAt (size pos : Nat) (len : Int) : Nat := if len < 0 ∨ (size : Int) - pos < len then size - pos else len.toNat

/-- The file `F` is open to be read as it is stored. -/
structure RawFile (st : State σ ι) (F : List Byte) : Prop where
  measureKernel : st.measureKernel = false
  compressedFile : st.compressedFile = false
  filemax : st.filemax = F.length
  stored : Stored st F

/-- The file `F` is open to be read as it is stored, and no error is pending. -/
structure RawOpen (st : State σ ι) (F : List Byte) : Prop extends RawFile st F where
  errnum : st.errnum = .none

/-- Where a read starts. -/
def State.startOf (st : State σ ι) : Nat := (saneFilepos st.filepos st.filemax).toNat

theorem countAt_le {size pos : Nat} (h : pos ≤ size) (len : Int) : pos + countAt size pos len ≤ size := by
  simp only [countAt]
  split <;> omega

theorem countAt_self {size n : Nat} (h : n ≤ size) : countAt size 0 n = n := by
  simp only [countAt]
  split <;> omega

theorem saneFilepos_of_le {filepos filemax : Int} (h : 0 ≤ filepos) (hle : filepos ≤ filemax) :
    saneFilepos filepos filemax = filepos := by
  simp only [saneFilepos]
  split <;> omega

theorem publish_idem (hasToMeasure : Word) (filemax : Int) :
    publish (publish hasToMeasure filemax) filemax = publish hasToMeasure filemax := by
  simp only [publish]
  by_cases h : hasToMeasure = 0
  · simp only [if_pos h]; exact ite_self _
  · simp only [if_neg h]

theorem RawOpen.start {st : State σ ι} {F : List Byte} (h : RawOpen st F) :
    saneFilepos st.filepos st.filemax = st.startOf ∧ st.startOf ≤ F.length := by
  have hmax := h.filemax
  simp only [State.startOf, saneFilepos]
  split <;> omega

theorem RawOpen.saneLen {st : State σ ι} {F : List Byte} (h : RawOpen st F) (len : Int) :
    st.aimed.saneLen len = countAt F.length st.startOf len := by
  obtain ⟨hstart, hle⟩ := h.start
  have haim : st.aimed.filepos = st.startOf := hstart
  have hmax : st.aimed.filemax = F.length := h.filemax
  rw [State.saneLen, haim, hmax, countAt]
  split <;> omega

/-- The driver can reach all that a read of `len` asks for. -/
def State.Reaches (st : State σ ι) (F : List Byte) (len : Int) : Prop :=
  ((st.startOf + countAt F.length st.startOf len : Nat) : Int) ≤ st.fsmax

/-- What a read of `n` bytes at `pos` by the driver adds to the measurement of `F`. -/
def State.measured (st : State σ ι) (F : List Byte) (pos n : Nat) : State σ ι :=
  if st.performSha1 ∧ st.blockFile = false then st.hashed (segment F pos n) n else st

theorem State.measured_quiet {st : State σ ι} (h : st.performSha1 = false) (F : List Byte) (pos n : Nat) :
    st.measured F pos n = st := by
  rw [State.measured, if_neg (by simp [h])]

/-- The stored file is delivered, whichever way it is stored. -/
theorem stored_delivered (hp : p.Healthy) (read : Reader σ ι) (buf : Dest) {st : State σ ι} {F : List Byte} {n : Nat}
    (h : RawOpen st F) (hpos : 0 ≤ st.filepos) (hend : st.filepos + n ≤ F.length) :
    ∃ driver blocks, fileRead p read st buf n =
        ((n : Int), store buf.bytes 0 (segment F st.filepos.toNat n),
          (st.served driver blocks (st.filepos + n)).measured F st.filepos.toNat n) ∧
      (st.blockFile = true → blocks.Hold st.part F) := by
  rw [fileRead, if_neg (by simp [h.compressedFile])]
  by_cases hb : st.blockFile
  · obtain ⟨driver, blocks, heq, hhold, -⟩ :=
      blockLoop_healthy (p := p) hp buf n 0 n buf.bytes st (Nat.le_refl n) h.errnum (h.stored.blocks hb) hpos hend
    refine ⟨driver, blocks, ?_, fun _ => hhold⟩
    rw [if_pos hb, State.measured, if_neg (by simp [State.served, hb])]
    simp only [blockRead, Int.toNat_natCast, heq, State.served, if_pos h.errnum]
  · have hb' : st.blockFile = false := by simpa using hb
    have hs := h.stored.driver hb'
    generalize hrq : (⟨st.filepos, n, buf.usable 0 n, st.errnum⟩ : Request) = rq
    have hanswer : p.readFunc st.driver rq = (none, (p.readFunc st.driver rq).2) := Prod.ext (hp.readFunc _ _) rfl
    refine ⟨(p.readFunc st.driver rq).2, st.blocks, ?_, fun h => absurd h hb⟩
    have hseg : (segment F st.filepos.toNat n).length = n := Memory.segment_length (by omega)
    have hslice : slice (store buf.bytes 0 (segment F st.filepos.toNat n)) 0 n = segment F st.filepos.toNat n :=
      Memory.slice_store _ _ hseg
    rw [if_neg hb, if_pos hs.1]
    simp only [driverRead, Int.toNat_natCast, hrq]
    rw [hanswer]
    simp only [State.driverAnswered, access, hs.2, State.measured, State.served, hslice, hb', and_true]

/-- A read, once the skipped part of the file has been dealt with. -/
theorem read_behind (hp : p.Healthy) {read : Reader σ ι} {st s : State σ ι} {F : List Byte} (buf : Dest) (len : Int)
    (h : RawOpen st F) (hskip : measureSkipped read st.aimed = s) (hs : RawOpen s F)
    (hpos : s.filepos = st.startOf) (hreach : st.Reaches F len) :
    ∃ driver blocks, grubReadWith p read st buf len =
        ((countAt F.length st.startOf len : Int), store buf.bytes 0 (segment F st.startOf (countAt F.length st.startOf len)),
          (s.served driver blocks (st.startOf + countAt F.length st.startOf len)).measured F st.startOf
            (countAt F.length st.startOf len)) ∧
      (s.blockFile = true → blocks.Hold s.part F) := by
  obtain ⟨hstart, hle⟩ := h.start
  have hend := countAt_le hle len
  have hlimit : ((st.startOf + countAt F.length st.startOf len : Nat) : Int) ≤ st.fsmax := hreach
  obtain ⟨driver, blocks, heq, hstored⟩ := stored_delivered (p := p) hp read buf (n := countAt F.length st.startOf len)
    hs (by omega) (by omega)
  have haim : st.aimed.filepos = st.startOf := hstart
  refine ⟨driver, blocks, ?_, hstored⟩
  simp only [grubReadWith, h.saneLen]
  rw [if_neg (by simp [State.aimed, h.measureKernel]), if_neg (by rw [haim]; simp only [State.aimed]; omega), hskip, heq, hpos,
    Int.toNat_natCast]

/-- What the beginning of a read adds to the measurement of `F`: a part that was
skipped, if nothing has been measured yet. -/
def State.skipped (st : State σ ι) (F : List Byte) (pos : Nat) : State σ ι :=
  if st.performSha1 ∧ st.sha1ByteCount = 0 ∧ 0 < pos then st.hashed (F.take pos) pos else st

theorem State.skipped_of (st : State σ ι) {pos : Nat} (h : st.performSha1 = true ∧ st.sha1ByteCount = 0 ∧ 0 < pos)
    (F : List Byte) : st.skipped F pos = st.hashed (F.take pos) pos := if_pos h

theorem State.skipped_not (st : State σ ι) {pos : Nat} (h : ¬ (st.performSha1 = true ∧ st.sha1ByteCount = 0 ∧ 0 < pos))
    (F : List Byte) : st.skipped F pos = st := if_neg h

theorem skipped_served (st : State σ ι) (F : List Byte) (pos : Nat) (driver driver' : σ) (blocks blocks' : Blocks)
    (filepos filepos' : Int) :
    ((st.served driver blocks filepos).skipped F pos).served driver' blocks' filepos' =
      (st.served driver' blocks' filepos').skipped F pos := by
  by_cases hc : st.performSha1 = true ∧ st.sha1ByteCount = 0 ∧ 0 < pos
  · have h₁ := State.skipped_of (st.served driver blocks filepos) hc F
    have h₂ := State.skipped_of (st.served driver' blocks' filepos') hc F
    rw [h₁, h₂]; rfl
  · have h₁ := State.skipped_not (st.served driver blocks filepos) hc F
    have h₂ := State.skipped_not (st.served driver' blocks' filepos') hc F
    rw [h₁, h₂]; rfl

theorem RawOpen.aimed {st : State σ ι} {F : List Byte} (h : RawOpen st F) : RawOpen st.aimed F :=
  ⟨⟨h.measureKernel, h.compressedFile, h.filemax, h.stored.blocks, h.stored.driver⟩, h.errnum⟩

theorem RawOpen.rewound {st : State σ ι} {F : List Byte} (h : RawOpen st F) : RawOpen st.rewound F :=
  ⟨⟨h.measureKernel, h.compressedFile, h.filemax, h.stored.blocks, h.stored.driver⟩, h.errnum⟩

theorem RawOpen.served {st : State σ ι} {F : List Byte} (h : RawOpen st F) {blocks : Blocks}
    (hb : st.blockFile = true → blocks.Hold st.part F) (driver : σ) (filepos : Int) :
    RawOpen (st.served driver blocks filepos) F :=
  ⟨⟨h.measureKernel, h.compressedFile, h.filemax, hb, h.stored.driver⟩, h.errnum⟩

theorem RawOpen.hashed {st : State σ ι} {F : List Byte} (h : RawOpen st F) (bytes : List Byte) (count : Int) :
    RawOpen (st.hashed bytes count) F :=
  ⟨⟨h.measureKernel, h.compressedFile, h.filemax, h.stored.blocks, h.stored.driver⟩, h.errnum⟩

theorem RawOpen.measured {st : State σ ι} {F : List Byte} (h : RawOpen st F) (G : List Byte) (pos n : Nat) :
    RawOpen (st.measured G pos n) F := by
  rw [State.measured]
  split
  · exact h.hashed _ _
  · exact h

theorem RawOpen.skipped {st : State σ ι} {F : List Byte} (h : RawOpen st F) (G : List Byte) (pos : Nat) :
    RawOpen (st.skipped G pos) F := by
  rw [State.skipped]
  split
  · exact h.hashed _ _
  · exact h

theorem RawOpen.rewound_start {st : State σ ι} {F : List Byte} (h : RawOpen st F) : st.rewound.startOf = 0 := by
  have hmax := h.filemax
  simp only [State.startOf, State.rewound]
  rw [saneFilepos_of_le (by omega) (by omega)]
  rfl

theorem RawOpen.rewound_aimed {st : State σ ι} {F : List Byte} (h : RawOpen st F) : st.aimed.rewound.aimed = st.aimed.rewound := by
  have hmax := h.filemax
  simp only [State.aimed, State.rewound]
  rw [saneFilepos_of_le (by omega) (by omega), publish_idem]

/-- The detour of a skipped part leaves only the device's traces. -/
theorem resumed_rewound {st : State σ ι} (h : st.performSha1 = true) (driver : σ) (blocks : Blocks) (filepos : Int) :
    (st.rewound.served driver blocks filepos).resumed = st.served driver blocks filepos := by
  simp only [State.rewound, State.served, State.resumed, h]

/-- The skipped part is read with measuring off, and hashed. -/
theorem skip_raw (hp : p.Healthy) (read : Reader σ ι) {st : State σ ι} {F : List Byte} {len : Int} (h : RawOpen st F)
    (hreach : st.Reaches F len) :
    ∃ driver blocks, measureSkipped (grubReadWith p read) st.aimed =
        (st.aimed.served driver blocks st.startOf).skipped F st.startOf ∧ (st.blockFile = true → blocks.Hold st.part F) := by
  obtain ⟨hstart, hle⟩ := h.start
  have hfile : st.aimed.filepos = st.startOf := hstart
  by_cases hskip : st.aimed.performSha1 ∧ st.aimed.sha1ByteCount = 0 ∧ 0 < st.aimed.filepos
  · have hquiet : measureSkipped read st.aimed.rewound.aimed = st.aimed.rewound := by
      rw [h.rewound_aimed, measureSkipped, if_neg (by simp [State.rewound])]
    have hback : st.aimed.rewound.Reaches F st.aimed.filepos := by
      have hfs : st.aimed.rewound.fsmax = st.fsmax := rfl
      simp only [State.Reaches] at hreach ⊢
      rw [h.aimed.rewound_start, hfile, countAt_self hle, hfs]
      omega
    obtain ⟨driver, blocks, heq, hstored⟩ := read_behind (p := p) hp (.local fun _ => 0) st.aimed.filepos
      h.aimed.rewound hquiet h.aimed.rewound (by rw [h.aimed.rewound_start]; rfl) hback
    rw [h.aimed.rewound_start, hfile, countAt_self hle, State.measured_quiet rfl] at heq
    refine ⟨driver, blocks, ?_, hstored⟩
    have hslice : slice (store (Dest.local fun _ => 0).bytes 0 (segment F 0 st.startOf)) 0 st.startOf = F.take st.startOf :=
      Memory.slice_store _ _ (Memory.segment_length (by omega))
    rw [measureSkipped, if_pos hskip, State.skipped, if_pos ⟨hskip.1, hskip.2.1, by omega⟩, hfile]
    simp only [heq, resumed_rewound hskip.1, Int.toNat_natCast, hslice, Nat.cast_zero, zero_add]
    rfl
  · refine ⟨st.driver, st.blocks, ?_, h.stored.blocks⟩
    rw [measureSkipped, if_neg hskip, State.skipped, if_neg (by rw [hfile] at hskip; exact fun h => hskip ⟨h.1, h.2.1, by omega⟩),
      ← hfile]
    rfl

/-- **A read of a stored file**: the bytes asked for, as far as the file goes, and the
measurement extended by a skipped part and by what the driver read. -/
theorem raw_read (hp : p.Healthy) (read : Reader σ ι) {st : State σ ι} {F : List Byte} (h : RawOpen st F) (buf : Dest)
    {len : Int} (hreach : st.Reaches F len) :
    ∃ driver blocks, grubReadWith p (grubReadWith p read) st buf len =
        ((countAt F.length st.startOf len : Int), store buf.bytes 0 (segment F st.startOf (countAt F.length st.startOf len)),
          ((st.aimed.served driver blocks (st.startOf + countAt F.length st.startOf len)).skipped F st.startOf).measured F
            st.startOf (countAt F.length st.startOf len)) ∧
      (st.blockFile = true → blocks.Hold st.part F) := by
  obtain ⟨driver₁, blocks₁, hskip, hhold₁⟩ := skip_raw hp read h hreach
  have hs := (h.aimed.served hhold₁ driver₁ st.startOf).skipped F st.startOf
  have hpos : ((st.aimed.served driver₁ blocks₁ st.startOf).skipped F st.startOf).filepos = st.startOf := by
    rw [State.skipped]
    split <;> rfl
  obtain ⟨driver, blocks, heq, hhold⟩ := read_behind hp buf len h hskip hs hpos hreach
  refine ⟨driver, blocks, ?_, fun hb => ?_⟩
  · rw [heq, skipped_served]
  · simp only [State.skipped] at hhold
    split at hhold <;> exact hhold hb

end TrustedGrub.Disk
