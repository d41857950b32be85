import TrustedGrub.Ext2.Resolves
import TrustedGrub.Fat.Dir

/-!
# The long names of a FAT directory

A long name belongs to a short entry when the entries directly before that one are its pieces. What
`fat_dir` follows is a run that other entries may interrupt. The entries are listed with the latest
one first.
-/

namespace TrustedGrub.Fat
open Fips180 (Byte)
open Disk (isspace)
open Memory (slice store)

/-! ## Long names -/

section Spec
variable {n sum : Nat}

/-- Some pieces of a long name, the latest one first: their numbers go down from `n`, with the flag
on the first one, and all have the checksum. -/
inductive Consecutive (n sum : Nat) : List DirBuf → Prop where
  | last {e : DirBuf} (long : e.Long) (id : e.id = 0x40 + n) (checksum : e.aliasChecksum = sum) : Consecutive n sum [e]
  | piece {e : DirBuf} {run : List DirBuf} (before : Consecutive n sum run) (long : e.Long) (id : e.id + run.length = n)
      (checksum : e.aliasChecksum = sum) : Consecutive n sum (e :: run)

/-- The characters of a piece, of two bytes each. -/
def DirBuf.units (e : DirBuf) : List Nat := DirBuf.longdirPos.map fun i => (e i).toNat + 0x100 * (e (i + 1)).toNat

/-- The name that the pieces are decoded to. -/
def nameOf (run : List DirBuf) : List Nat := (run.flatMap DirBuf.units).takeWhile fun c => c ≠ 0

/-- What the low bytes alone spell. -/
def lowName (run : List DirBuf) : List Byte := (run.flatMap DirBuf.piece).takeWhile fun c => c ≠ 0

/-- The entries directly before `e` form a complete run with the checksum of `e`, and are decoded to the name. -/
def HasLongName (before : List DirBuf) (e : DirBuf) (name : List Byte) : Prop :=
  ∃ n run rest, before = run ++ rest ∧ Consecutive n e.sum.toNat run ∧ run.length = n ∧ 0 < n ∧ n < 64 ∧ nameOf run = name.map BitVec.toNat

/-- The file of `e` has the name: the long one, or in the 8.3 form. -/
def Named (name : List Byte) (before : List DirBuf) (e : DirBuf) : Prop :=
  ¬ e.Long ∧ e.Valid ∧ (HasLongName before e name ∨ name = e.shortName)

open Classical in
/-- The first entry of a directory whose file has the name, and all the entries up to it. -/
noncomputable def firstNamed (name : List Byte) : List DirBuf → List DirBuf → Option (DirBuf × List DirBuf)
  | _, [] => none
  | before, e :: es =>
    if e 0 = 0 then none else if Named name before e then some (e, e :: before) else firstNamed name (e :: before) es

/-! ## Interrupted runs -/

/-- The pieces that are still followed behind `before`. The flag tells whether something else has
come between them, or the first one is not a proper first piece. -/
inductive Pending (n sum : Nat) : List DirBuf → List DirBuf → Bool → Prop where
  | first {e : DirBuf} {before : List DirBuf} (long : e.Long) (flag : e.id &&& 0x40 ≠ 0) (id : e.id &&& 0x3f = n) (pos : 0 < n)
      (checksum : e.aliasChecksum = sum) : Pending n sum (e :: before) [e] (decide (e.id ≠ 0x40 + n))
  | piece {e : DirBuf} {before run : List DirBuf} {interrupted : Bool} (pending : Pending n sum before run interrupted) (long : e.Long)
      (id : e.id + run.length = n) (room : run.length < n) (checksum : e.aliasChecksum = sum) :
          Pending n sum (e :: before) (e :: run) interrupted
  /-- A deleted entry or a volume label, or a short entry while pieces are missing. -/
  | other {e : DirBuf} {before run : List DirBuf} {interrupted : Bool} (pending : Pending n sum before run interrupted) (short : ¬ e.Long)
      (missing : e.Valid → run.length < n) : Pending n sum (e :: before) run true

/-- The name is there for `e`, but is not the one of its file: it has been put together from an interrupted run, or from
characters with high bytes. -/
def Misleads (name : List Byte) (before : List DirBuf) (e : DirBuf) : Prop :=
  ¬ e.Long ∧ e.Valid ∧ name ≠ e.shortName ∧ ∃ n run interrupted, Pending n e.sum.toNat before run interrupted ∧ run.length = n ∧
    lowName run = name ∧ (interrupted = true ∨ nameOf run ≠ name.map BitVec.toNat)

/-- Such an entry is in the directory, with no file of that name before it. -/
def Misled (name : List Byte) : List DirBuf → List DirBuf → Prop
  | _, [] => False
  | before, e :: es => e 0 ≠ 0 ∧ (Misleads name before e ∨ ¬ Named name before e ∧ Misled name (e :: before) es)

variable {sum' n' : Nat} {before run run' : List DirBuf} {interrupted interrupted' : Bool}

theorem Pending.lt (h : Pending n sum before run interrupted) : n < 64 := by
  induction h with
  | first long flag id pos checksum =>
    subst id
    exact Nat.lt_of_le_of_lt Nat.and_le_right (by decide)
  | piece pending long id room checksum ih => exact ih
  | other pending short missing ih => exact ih

theorem Pending.length_le (h : Pending n sum before run interrupted) : 0 < run.length ∧ run.length ≤ n := by
  induction h with
  | first long flag id pos checksum => exact ⟨Nat.one_pos, pos⟩
  | piece pending long id room checksum ih => exact ⟨Nat.succ_pos _, room⟩
  | other pending short missing ih => exact ih

/-- A number below 64 has no flag. -/
theorem flag_eq_zero {id : Nat} (h : id < 64) : id &&& 0x40 = 0 := by
  have hall : ∀ id < 64, id &&& 0x40 = 0 := by decide
  exact hall id h

theorem Pending.piece_flag {e : DirBuf} (h : Pending n sum before run interrupted) (hid : e.id + run.length = n) : e.id &&& 0x40 = 0 :=
  flag_eq_zero (by have hlt := h.lt; omega)

theorem Pending.unique (h : Pending n sum before run interrupted) (h' : Pending n' sum' before run' interrupted') :
    n = n' ∧ sum = sum' ∧ run = run' ∧ interrupted = interrupted' := by
  induction h generalizing run' interrupted' with
  | first long flag id pos checksum =>
    cases h' with
    | first _ _ id' _ checksum' =>
      obtain rfl : _ = n' := id'
      subst id checksum
      exact ⟨rfl, checksum', rfl, rfl⟩
    | piece pending _ id' => exact absurd (pending.piece_flag id') flag
    | other _ short => exact absurd long short
  | piece pending long id room checksum ih =>
    cases h' with
    | first _ flag => exact absurd (pending.piece_flag id) flag
    | piece pending' =>
      obtain ⟨rfl, rfl, rfl, rfl⟩ := ih pending'
      exact ⟨rfl, rfl, rfl, rfl⟩
    | other _ short => exact absurd long short
  | other pending short missing ih =>
    cases h' with
    | first long => exact absurd long short
    | piece _ long => exact absurd long short
    | other pending' =>
      obtain ⟨rfl, rfl, rfl, -⟩ := ih pending'
      exact ⟨rfl, rfl, rfl, rfl⟩

/-- A run without interruption is directly before. -/
theorem Pending.consecutive (h : Pending n sum before run interrupted) (hno : interrupted = false) :
    ∃ rest, before = run ++ rest ∧ Consecutive n sum run := by
  induction h with
  | @first e before long flag id pos checksum => exact ⟨before, rfl, .last long (not_not.1 (of_decide_eq_false hno)) checksum⟩
  | @piece e before run interrupted pending long id room checksum ih =>
    obtain ⟨rest, rfl, hrun⟩ := ih hno
    exact ⟨rest, rfl, .piece hrun long id checksum⟩
  | other => cases hno

theorem Consecutive.pending (h : Consecutive n sum run) (hpos : 0 < n) (hn : n < 64) (hlen : run.length ≤ n) (rest : List DirBuf) :
    Pending n sum (run ++ rest) run false := by
  induction h with
  | @last e long id checksum =>
    have hall : ∀ n < 64, (0x40 + n) &&& 0x3f = n ∧ (0x40 + n) &&& 0x40 ≠ 0 := by decide
    have hfirst : Pending n sum (e :: rest) [e] (decide (e.id ≠ 0x40 + n)) :=
      .first long (id ▸ (hall n hn).2) (id ▸ (hall n hn).1) hpos checksum
    rwa [decide_eq_false (not_not.2 id)] at hfirst
  | piece before long id checksum ih => exact .piece (ih (Nat.le_of_succ_le hlen)) long id hlen checksum

end Spec

/-! ## What the loop keeps -/

section Loop
variable {n sum : Nat} {before run : List DirBuf} {interrupted : Bool} {r : Run} {e : DirBuf}

/-- `fat_dir` has read the entries, in one directory or in several. -/
inductive Reads : List DirBuf → Run → Prop where
  | start (filename : Nat → Byte) : Reads [] (.start filename)
  | read {before : List DirBuf} {r : Run} {e : DirBuf} (reads : Reads before r) (used : e 0 ≠ 0) (dirname : List Byte) :
      Reads (e :: before) (r.look dirname e).2

/-- The pieces so far are in their places. -/
structure Run.Holds (r : Run) (n sum : Nat) (run : List DirBuf) : Prop where
  aliasChecksum : r.aliasChecksum = sum
  slot : r.slot = (n - run.length : Nat)
  pieces : slice r.filename ((n - run.length) * 13) (run.length * 13) = run.flatMap DirBuf.piece
  terminated : r.filename (n * 13) = 0

/-- A run is followed, or none is. -/
inductive Run.Tracks (before : List DirBuf) (r : Run) : Prop where
  | following {n sum : Nat} {run : List DirBuf} {interrupted : Bool} (pending : Pending n sum before run interrupted)
    (holds : r.Holds n sum run)
  | idle (none : ∀ n sum run interrupted, ¬ Pending n sum before run interrupted) (idle : r.aliasChecksum = -1 ∨ r.slot = -2)

theorem DirBuf.piece_length (e : DirBuf) : e.piece.length = 13 := rfl

/-- A piece with the number that is due. -/
theorem Run.Holds.add (h : r.Holds n sum run) (hlt : run.length < n) (hid : e.id + run.length = n) (hsum : e.aliasChecksum = sum) :
    (r.add e e.id).Holds n sum (e :: run) := by
  obtain ⟨k, hk⟩ : ∃ k, n - run.length = k + 1 := ⟨n - run.length - 1, by omega⟩
  have hslot := h.slot
  have hpieces := h.pieces
  rw [hk] at hslot hpieces
  have hdue : ¬ ((e.id : Int) ≠ r.slot ∨ r.slot = 0 ∨ r.aliasChecksum ≠ e.aliasChecksum) := by
    rw [hslot, h.aliasChecksum, hsum]
    omega
  have hleft : n - (e :: run).length = k := by
    rw [List.length_cons]
    omega
  have hplace : (r.slot - 1).toNat * 13 = k * 13 := by
    rw [hslot]
    omega
  rw [Run.add, if_neg hdue]
  refine ⟨h.aliasChecksum, ?_, ?_, ?_⟩
  · rw [hleft]
    show r.slot - 1 = _
    omega
  · show slice (store r.filename ((r.slot - 1).toNat * 13) e.piece) _ _ = _
    rw [hleft, hplace, List.length_cons, Nat.add_mul, Nat.one_mul, Nat.add_comm (run.length * 13) 13, Memory.slice_add]
    rw [Memory.slice_store _ _ e.piece_length, List.flatMap_cons]
    rw [Memory.slice_store_disjoint (.inr (by rw [e.piece_length])), show k * 13 + 13 = (k + 1) * 13 by omega, hpieces]
  · show store r.filename ((r.slot - 1).toNat * 13) e.piece (n * 13) = 0
    rw [hplace, Memory.store_of_ge (by rw [e.piece_length]; omega), h.terminated]

/-- A first piece. -/
theorem Run.begin_add (r : Run) (e : DirBuf) (hn : e.id &&& 0x3f = n) (hpos : 0 < n) :
    ((r.begin e).add e (e.id &&& 0x3f)).Holds n e.aliasChecksum [e] := by
  obtain ⟨k, rfl⟩ : ∃ k, n = k + 1 := ⟨n - 1, by omega⟩
  have hdue : ¬ (((k + 1 : Nat) : Int) ≠ (r.begin e).slot ∨ (r.begin e).slot = 0 ∨ (r.begin e).aliasChecksum ≠ e.aliasChecksum) := by
    show ¬ (((k + 1 : Nat) : Int) ≠ (e.id &&& 0x3f : Nat) ∨ ((e.id &&& 0x3f : Nat) : Int) = 0 ∨ (e.aliasChecksum : Int) ≠ e.aliasChecksum)
    omega
  have hplace : ((r.begin e).slot - 1).toNat = k := by
    show (((e.id &&& 0x3f : Nat) : Int) - 1).toNat = k
    omega
  rw [hn, Run.add, if_neg hdue]
  refine ⟨rfl, ?_, ?_, ?_⟩
  · show ((e.id &&& 0x3f : Nat) : Int) - 1 = ((k + 1 - 1 : Nat) : Int)
    omega
  · show slice (store (r.begin e).filename (((r.begin e).slot - 1).toNat * 13) e.piece) (k * 13) (1 * 13) = _
    rw [hplace, Memory.slice_store _ _ e.piece_length, List.flatMap_cons]
    exact (List.append_nil _).symm
  · show store (store r.filename ((e.id &&& 0x3f) * 13) [0]) (((r.begin e).slot - 1).toNat * 13) e.piece ((k + 1) * 13) = 0
    have hstored : store r.filename ((k + 1) * 13) [0] ((k + 1) * 13 + 0) = 0 := Memory.store_at Nat.one_pos
    rw [hplace, Memory.store_of_ge (by rw [e.piece_length]; omega), hn]
    exact hstored

/-- A piece that is not due. -/
theorem Run.add_refused (h : (e.id : Int) ≠ r.slot ∨ r.slot = 0 ∨ r.aliasChecksum ≠ e.aliasChecksum) :
    (r.add e e.id).aliasChecksum = -1 := by
  rw [Run.add, if_pos h]

theorem Run.Holds.complete_iff (h : r.Holds n sum run) (hlen : run.length ≤ n) : r.Complete ↔ run.length = n := by
  unfold Run.Complete
  rw [h.aliasChecksum, h.slot]
  omega

theorem namePart_length (e : DirBuf) (start len : Nat) : (namePart e start len).length ≤ len :=
  (List.takeWhile_sublist _).length_le.trans (by rw [List.length_map, Memory.slice_length])

theorem DirBuf.shortBytes_length (e : DirBuf) : e.shortBytes.length ≤ 13 := by
  have hname := namePart_length e 0 8
  have hextension := namePart_length e 8 3
  unfold DirBuf.shortBytes
  rw [List.length_append]
  split
  · show _ + 2 ≤ 13
    omega
  · rw [List.length_append, List.length_cons]
    show _ + (_ + 1 + 1) ≤ 13
    omega

/-- The 8.3 form lies before the pieces, while there are pieces missing. -/
theorem Run.Holds.short (h : r.Holds n sum run) (hlt : run.length < n) (e : DirBuf) : (r.short e).Holds n sum run := by
  have hlen := e.shortBytes_length
  refine ⟨h.aliasChecksum, h.slot, ?_, ?_⟩
  · show slice (store r.filename 0 e.shortBytes) _ _ = _
    rw [Memory.slice_store_disjoint (.inr (by omega)), h.pieces]
  · show store r.filename 0 e.shortBytes (n * 13) = 0
    rw [Memory.store_of_ge (by omega), h.terminated]

/-- A piece, whatever is followed. -/
theorem Run.Tracks.add (h : r.Tracks before) (hlong : e.Long) (hflag : e.id &&& 0x40 = 0) : (r.add e e.id).Tracks (e :: before) := by
  cases h with
  | @following n sum run interrupted pending holds =>
    by_cases hdue : run.length < n ∧ e.id + run.length = n ∧ e.aliasChecksum = sum
    · obtain ⟨hlt, hid, hsum⟩ := hdue
      exact .following (.piece pending hlong hid hlt hsum) (holds.add hlt hid hsum)
    · refine .idle (fun n' sum' run' interrupted' hpending => ?_) (.inl (Run.add_refused ?_))
      · cases hpending with
        | first _ flag => exact flag hflag
        | piece pending' _ id room checksum =>
          obtain ⟨rfl, rfl, rfl, -⟩ := pending.unique pending'
          exact hdue ⟨room, id, checksum⟩
        | other _ short => exact short hlong
      · have hlen := pending.length_le.2
        rw [holds.aliasChecksum, holds.slot]
        omega
  | idle none idle =>
    refine .idle (fun n' sum' run' interrupted' hpending => ?_) (.inl (Run.add_refused ?_))
    · cases hpending with
      | first _ flag => exact flag hflag
      | piece pending' => exact none _ _ _ _ pending'
      | other _ short => exact short hlong
    · omega

/-- An entry of a long name. -/
theorem Run.Tracks.long (h : r.Tracks before) (hlong : e.Long) : (r.long e).Tracks (e :: before) := by
  unfold Run.long
  by_cases hflag : e.id &&& 0x40 = 0
  · rw [if_neg (not_not.2 hflag)]
    exact h.add hlong hflag
  · rw [if_pos hflag]
    obtain hzero | hpos := Nat.eq_zero_or_pos (e.id &&& 0x3f)
    · refine .idle (fun n' sum' run' interrupted' hpending => ?_) (.inl ?_)
      · cases hpending with
        | first _ _ id pos => omega
        | piece pending' _ id => exact hflag (pending'.piece_flag id)
        | other _ short => exact short hlong
      · have hslot : (r.begin e).slot = 0 := by
          show ((e.id &&& 0x3f : Nat) : Int) = 0
          omega
        rw [Run.add, if_pos (.inr (.inl hslot))]
    · exact .following (.first hlong hflag rfl hpos rfl) (r.begin_add e rfl hpos)

/-- A valid short entry: a complete run ends, and another one goes on. -/
theorem Run.Tracks.short (h : r.Tracks before) (hshort : ¬ e.Long) (hvalid : e.Valid) (dirname : List Byte) :
    (r.look dirname e).2.Tracks (e :: before) := by
  have hlook : (r.look dirname e).2 = r.used ∧ r.Complete ∨ (r.look dirname e).2 = r.used.short e := by
    rw [Run.look, if_neg hshort, if_neg (not_not.2 hvalid)]
    split
    next hfound =>
      refine .inl ⟨rfl, by_contra fun hnot => ?_⟩
      rw [Run.matchesLong, Run.longName, if_neg fun h => hnot h.1] at hfound
      cases hfound
    next => exact .inr rfl
  cases h with
  | @following n sum run interrupted pending holds =>
    obtain hlt | heq := Nat.lt_or_eq_of_le pending.length_le.2
    · have hnot : ¬ r.Complete := fun hcomplete => Nat.ne_of_lt hlt ((holds.complete_iff pending.length_le.2).1 hcomplete)
      rw [hlook.resolve_left fun h => hnot h.2, Run.used, if_neg hnot]
      exact .following (.other pending hshort fun _ => hlt) (holds.short hlt e)
    · have hcomplete : r.Complete := (holds.complete_iff pending.length_le.2).2 heq
      refine .idle (fun n' sum' run' interrupted' hpending => ?_) (.inr ?_)
      · cases hpending with
        | first long => exact hshort long
        | piece _ long => exact hshort long
        | other pending' _ missing =>
          obtain ⟨rfl, rfl, rfl, -⟩ := pending.unique pending'
          exact Nat.ne_of_lt (missing hvalid) heq
      · have hused : r.used.slot = -2 := by rw [Run.used, if_pos hcomplete]
        obtain ⟨heq, -⟩ | heq := hlook
        · rw [heq, hused]
        · rw [heq]
          exact hused
  | idle none idle =>
    have hnot : ¬ r.Complete := by
      unfold Run.Complete
      omega
    rw [hlook.resolve_left fun h => hnot h.2, Run.used, if_neg hnot]
    refine .idle (fun n' sum' run' interrupted' hpending => ?_) idle
    cases hpending with
    | first long => exact hshort long
    | piece _ long => exact hshort long
    | other pending' => exact none _ _ _ _ pending'

/-- **One entry.** -/
theorem Run.Tracks.look (h : r.Tracks before) (dirname : List Byte) (e : DirBuf) : (r.look dirname e).2.Tracks (e :: before) := by
  by_cases hlong : e.Long
  · rw [Run.look, if_pos hlong]
    exact h.long hlong
  by_cases hvalid : e.Valid
  · exact h.short hlong hvalid dirname
  rw [Run.look, if_neg hlong, if_pos hvalid]
  cases h with
  | following pending holds => exact .following (.other pending hlong fun hyes => absurd hyes hvalid) holds
  | idle none idle =>
    refine .idle (fun n' sum' run' interrupted' hpending => ?_) idle
    cases hpending with
    | first long => exact hlong long
    | piece _ long => exact hlong long
    | other pending' => exact none _ _ _ _ pending'

/-- **Every run of the loop.** -/
theorem Reads.tracks (h : Reads before r) : r.Tracks before := by
  induction h with
  | start filename => exact .idle (fun n sum run interrupted hpending => nomatch hpending) (.inl rfl)
  | read reads used dirname ih => exact ih.look dirname _

/-- A string ends with the first zero. -/
theorem takeWhile_append_zero (s t : List Byte) : (s ++ 0 :: t).takeWhile (fun c => c ≠ 0) = s.takeWhile fun c => c ≠ 0 := by
  rw [List.takeWhile_append, List.takeWhile_cons_of_neg (by simp), List.append_nil]
  split
  next hall => exact ((List.takeWhile_prefix _).eq_of_length hall).symm
  next => rfl

/-- The string in the buffer, once no piece is missing. -/
theorem Run.Holds.name (h : r.Holds n sum run) (hlen : run.length = n) (hn : n < 64) : r.name = lowName run := by
  have hpieces := h.pieces
  rw [hlen, Nat.sub_self, Nat.zero_mul] at hpieces
  obtain ⟨k, hk⟩ : ∃ k, nameBufLen = n * 13 + (k + 1) := ⟨nameBufLen - n * 13 - 1, by unfold nameBufLen; omega⟩
  have hrest : slice r.filename (0 + n * 13) (k + 1) = 0 :: slice r.filename (n * 13 + 1) k := by
    rw [Nat.zero_add, Nat.add_comm k 1, Memory.slice_add, ← h.terminated]
    rfl
  rw [Run.name, hk, Memory.slice_add, hpieces, hrest, takeWhile_append_zero, lowName]

/-- The long name that `e` is compared with. -/
theorem Run.Tracks.longName (h : r.Tracks before) (e : DirBuf) (name : List Byte) :
    r.longName e = some name ↔
      ∃ n run interrupted, Pending n e.sum.toNat before run interrupted ∧ run.length = n ∧ lowName run = name := by
  cases h with
  | @following n sum run interrupted pending holds =>
    have hle := pending.length_le.2
    have hname (hlen : run.length = n) : r.name = lowName run := holds.name hlen pending.lt
    constructor
    · intro hlong
      rw [Run.longName] at hlong
      split at hlong
      next hcond =>
        obtain ⟨hcomplete, hsum⟩ := hcond
        have hlen := (holds.complete_iff hle).1 hcomplete
        rw [holds.aliasChecksum] at hsum
        obtain rfl : e.sum.toNat = sum := Int.ofNat_inj.1 hsum
        exact ⟨n, run, interrupted, pending, hlen, (hname hlen).symm.trans (Option.some.inj hlong)⟩
      next => cases hlong
    · rintro ⟨n', run', interrupted', hpending, hlen, rfl⟩
      obtain ⟨rfl, rfl, rfl, -⟩ := pending.unique hpending
      rw [Run.longName, if_pos ⟨(holds.complete_iff hle).2 hlen, holds.aliasChecksum.symm⟩, hname hlen]
  | idle none idle =>
    have hnot : ¬ r.Complete := by
      unfold Run.Complete
      omega
    rw [Run.longName, if_neg fun h => hnot h.1]
    constructor
    · intro h
      cases h
    · rintro ⟨n, run, interrupted, hpending, -⟩
      exact absurd hpending (none _ _ _ _)

theorem Run.matchesLong_iff (r : Run) (dirname : List Byte) (e : DirBuf) : r.matchesLong dirname e ↔ r.longName e = some dirname := by
  unfold Run.matchesLong
  cases hname : r.longName e with
  | none =>
    constructor
    · intro h
      cases h
    · intro h
      cases h
  | some name =>
    rw [Option.any_some, decide_eq_true_iff, Ext2.substring_eq_zero, Option.some_inj]
    exact eq_comm

/-- What the loop finds, in terms of the entries before. -/
theorem Reads.look_iff {name : List Byte} (h : Reads before r) : (r.look name e).1 ↔
    ¬ e.Long ∧ e.Valid ∧ ((∃ n run interrupted, Pending n e.sum.toNat before run interrupted ∧ run.length = n ∧ lowName run = name) ∨
      name = e.shortName) := by
  rw [← h.tracks.longName, ← r.matchesLong_iff, Run.look]
  by_cases hlong : e.Long
  · simp [hlong]
  by_cases hvalid : e.Valid
  · by_cases hmatch : r.matchesLong name e
    · simp [hlong, hvalid, hmatch]
    · simp [hlong, hvalid, hmatch, Ext2.substring_eq_zero]
  · simp [hlong, hvalid]

/-- The low bytes of a piece are the code's. -/
theorem DirBuf.piece_eq (e : DirBuf) : e.piece = e.units.map (BitVec.ofNat 8) := by
  rw [DirBuf.piece, DirBuf.units, List.map_map]
  apply List.map_congr_left
  intro i _
  apply BitVec.eq_of_toNat_eq
  have hlt := (e i).isLt
  simp only [Function.comp_apply, BitVec.toNat_ofNat]
  omega

/-- Of a name of bytes, nothing is left out. -/
theorem low_of_bytes {units : List Nat} {name : List Byte} (h : units.takeWhile (fun c => c ≠ 0) = name.map BitVec.toNat) :
    (units.map (BitVec.ofNat 8)).takeWhile (fun c => c ≠ 0) = name := by
  induction units generalizing name with
  | nil =>
    cases name with
    | nil => rfl
    | cons c name => cases h
  | cons u units ih =>
    rw [List.map_cons]
    by_cases hzero : u = 0
    · subst hzero
      rw [List.takeWhile_cons_of_neg (by simp)] at h
      rw [List.takeWhile_cons_of_neg (by simp)]
      exact (List.map_eq_nil_iff.1 h.symm).symm
    · rw [List.takeWhile_cons_of_pos (by simpa using hzero)] at h
      cases name with
      | nil => cases h
      | cons c name =>
        obtain ⟨rfl, htail⟩ := List.cons.inj h
        have hc : BitVec.ofNat 8 c.toNat = c := by simp
        have hpos : c ≠ 0 := fun hc => hzero (by rw [hc]; rfl)
        rw [hc, List.takeWhile_cons_of_pos (by simpa using hpos), ih htail]

theorem lowName_of_nameOf {name : List Byte} (h : nameOf run = name.map BitVec.toNat) : lowName run = name := by
  have hlow : run.flatMap DirBuf.piece = (run.flatMap DirBuf.units).map (BitVec.ofNat 8) := by
    rw [List.map_flatMap]
    exact congrArg (List.flatMap · run) (funext DirBuf.piece_eq)
  rw [lowName, hlow]
  exact low_of_bytes h

/-- The long name of `e` is there when no run has been interrupted. -/
theorem Pending.hasLongName {name : List Byte} : HasLongName before e name ↔
    ∃ n run, Pending n e.sum.toNat before run false ∧ run.length = n ∧ nameOf run = name.map BitVec.toNat := by
  constructor
  · rintro ⟨n, run, rest, rfl, hrun, hlen, hpos, hn, hname⟩
    exact ⟨n, run, hrun.pending hpos hn (Nat.le_of_eq hlen) rest, hlen, hname⟩
  · rintro ⟨n, run, hpending, hlen, hname⟩
    obtain ⟨rest, hbefore, hrun⟩ := hpending.consecutive rfl
    have hpos := hpending.length_le.1
    exact ⟨n, run, rest, hbefore, hrun, hlen, hlen ▸ hpos, hpending.lt, hname⟩

/-- Nothing that belongs to the file is left out. -/
theorem Named.look {name : List Byte} (h : Reads before r) (hnamed : Named name before e) : (r.look name e).1 := by
  obtain ⟨hshort, hvalid, hname⟩ := hnamed
  refine h.look_iff.2 ⟨hshort, hvalid, hname.imp_left fun hlong => ?_⟩
  obtain ⟨n, run, hpending, hlen, hname⟩ := Pending.hasLongName.1 hlong
  exact ⟨n, run, false, hpending, hlen, lowName_of_nameOf hname⟩

/-- And what does not belong to it is found exactly if it misleads. -/
theorem Reads.misleads_iff {name : List Byte} (h : Reads before r) :
    Misleads name before e ↔ (r.look name e).1 ∧ ¬ Named name before e := by
  rw [h.look_iff]
  constructor
  · rintro ⟨hshort, hvalid, hne, n, run, interrupted, hpending, hlen, hlow, hwrong⟩
    refine ⟨⟨hshort, hvalid, .inl ⟨n, run, interrupted, hpending, hlen, hlow⟩⟩, ?_⟩
    rintro ⟨-, -, hname⟩
    obtain ⟨n', run', hpending', -, hname'⟩ := Pending.hasLongName.1 (hname.resolve_right hne)
    obtain ⟨-, -, rfl, rfl⟩ := hpending.unique hpending'
    exact hwrong.elim (by simp) (absurd hname')
  · rintro ⟨⟨hshort, hvalid, hfound⟩, hnot⟩
    have hne : name ≠ e.shortName := fun heq => hnot ⟨hshort, hvalid, .inr heq⟩
    obtain ⟨n, run, interrupted, hpending, hlen, hlow⟩ := hfound.resolve_right hne
    refine ⟨hshort, hvalid, hne, n, run, interrupted, hpending, hlen, hlow, ?_⟩
    cases interrupted with
    | true => exact .inl rfl
    | false => exact .inr fun hname => hnot ⟨hshort, hvalid, .inl (Pending.hasLongName.2 ⟨n, run, hpending, hlen, hname⟩)⟩

end Loop

/-! ## The entry of a component -/

section Found
variable {name : List Byte} {before es : List DirBuf} {r : Run} {e : DirBuf}

/-- Where nothing misleads, the search ends at the first entry with the name. -/
theorem Reads.findEntry_eq (h : Reads before r) (hclear : ¬ Misled name before es) (k : Nat) :
    Option.Rel (fun found first => found.1 = first.1 ∧ Reads first.2 found.2) (findEntry name (es.take k) r)
      (firstNamed name before (es.take k)) := by
  induction es generalizing before r k with
  | nil =>
    rw [List.take_nil]
    exact .none
  | cons e es ih =>
    cases k with
    | zero => exact .none
    | succ k =>
      rw [List.take_succ_cons, findEntry, firstNamed]
      by_cases hend : e 0 = 0
      · rw [if_pos hend, if_pos hend]
        exact .none
      rw [if_neg hend, if_neg hend]
      have hnot : ¬ Misleads name before e := fun hyes => hclear ⟨hend, .inl hyes⟩
      have hreads : Reads (e :: before) (r.look name e).2 := .read h hend name
      by_cases hnamed : Named name before e
      · rw [if_pos hnamed]
        simp only [if_pos (hnamed.look h)]
        exact .some ⟨rfl, hreads⟩
      · have hlook : ¬ (r.look name e).1 := fun hyes => hnot (h.misleads_iff.2 ⟨hyes, hnamed⟩)
        rw [if_neg hnamed]
        simp only [if_neg hlook]
        exact ih hreads (fun hmisled => hclear ⟨hend, .inr ⟨hnamed, hmisled⟩⟩) k

/-- An entry that misleads ends the search. -/
theorem Reads.misled (h : Reads before r) (hmisled : Misled name before es) :
    ∃ k, (findEntry name (es.take k) r).isSome ∧ firstNamed name before (es.take k) = none := by
  induction es generalizing before r with
  | nil => exact hmisled.elim
  | cons e es ih =>
    obtain ⟨hused, hwhere⟩ := hmisled
    by_cases hhere : Misleads name before e
    · obtain ⟨hlook, hnamed⟩ := h.misleads_iff.1 hhere
      refine ⟨1, ?_, ?_⟩
      · rw [List.take_succ_cons, findEntry, if_neg hused]
        simp only [if_pos hlook, Option.isSome_some]
      · rw [List.take_succ_cons, firstNamed, if_neg hused, if_neg hnamed]
        rfl
    · obtain ⟨hnamed, hbehind⟩ := hwhere.resolve_left hhere
      have hlook : ¬ (r.look name e).1 := fun hyes => hhere (h.misleads_iff.2 ⟨hyes, hnamed⟩)
      obtain ⟨k, hfound, hnone⟩ := ih (.read h hused name) hbehind
      refine ⟨k + 1, ?_, ?_⟩
      · rw [List.take_succ_cons, findEntry, if_neg hused]
        simp only [if_neg hlook]
        exact hfound
      · rw [List.take_succ_cons, firstNamed, if_neg hused, if_neg hnamed]
        exact hnone

/-- **The search for a component ends at the first entry whose file has that name**, however much of the directory is there,
if and only if no other entry is misleading. -/
theorem findEntry_firstNamed (h : Reads before r) (name : List Byte) (es : List DirBuf) :
    (∀ k, (findEntry name (es.take k) r).map Prod.fst = (firstNamed name before (es.take k)).map Prod.fst) ↔
      ¬ Misled name before es := by
  constructor
  · intro hall hmisled
    obtain ⟨k, hfound, hnone⟩ := h.misled hmisled
    have heq := hall k
    rw [hnone, Option.map_none, Option.map_eq_none_iff] at heq
    rw [heq] at hfound
    cases hfound
  · intro hclear k
    have heq := h.findEntry_eq hclear k
    generalize findEntry name (es.take k) r = found at heq ⊢
    generalize firstNamed name before (es.take k) = first at heq ⊢
    cases heq with
    | none => rfl
    | some hsame => exact congrArg some hsame.1

end Found

/-! ## The path -/

section Path
variable {dirs : Nat → List DirBuf} {before before' : List DirBuf} {path path' : List Byte} {p p' q : Place}

/-- The path has no further component. -/
def AtEnd (path : List Byte) : Prop := path = [] ∨ isspace (path.headD 0)

/-- The component that a path goes on with. -/
def component (path : List Byte) : List Byte := (path.dropWhile (· = 0x2F)).takeWhile fun c => !isspace c && c ≠ 0x2F

/-- The path behind its component. -/
def behind (path : List Byte) : List Byte := (path.dropWhile (· = 0x2F)).drop (component path).length

/-- The file of an entry. -/
def DirBuf.place (e : DirBuf) (run : Run) : Place := ⟨e.attrib, e.firstCluster, e.filelength, run⟩

/-- The way down: each component goes to the first entry with its name. -/
inductive Leads (dirs : Nat → List DirBuf) : List DirBuf → Place → List Byte → List DirBuf → Place → List Byte → Prop where
  | here (before : List DirBuf) (p : Place) (path : List Byte) : Leads dirs before p path before p path
  | down {before before₁ before' : List DirBuf} {p q : Place} {path path' : List Byte} {e : DirBuf} {run : Run} (more : ¬ AtEnd path)
      (dir : p.isDir) (first : firstNamed (component path) before (dirs p.fileCluster) = some (e, before₁))
      (rest : Leads dirs before₁ (e.place run) (behind path) before' q path') : Leads dirs before p path before' q path'

/-- Nothing misleads on the way. -/
def ClearWay (dirs : Nat → List DirBuf) (before : List DirBuf) (p : Place) (path : List Byte) : Prop :=
  ∀ before' p' path', Leads dirs before p path before' p' path' → ¬ AtEnd path' → p'.isDir →
    ¬ Misled (component path') before' (dirs p'.fileCluster)

theorem fatDir_more {fuel : Nat} (hmore : ¬ AtEnd path) (hdir : p.isDir) : fatDir dirs (fuel + 1) path p =
    (findEntry (component path) (dirs p.fileCluster) p.run).elim (some (.error .fileNotFound))
      fun found => fatDir dirs fuel (behind path) (found.1.place found.2) := by
  unfold AtEnd at hmore
  rw [fatDir, if_neg hmore, if_neg (not_not.2 hdir)]
  unfold component behind DirBuf.place
  dsimp only
  cases findEntry _ (dirs p.fileCluster) p.run with
  | none => rfl
  | some found => rfl

/-- **`fat_dir` comes to the file that the path leads to**, component by component, where nothing misleads. -/
theorem fatDir_leads {fuel : Nat} (h : Reads before p.run) (hclear : ClearWay dirs before p path)
    (hfound : fatDir dirs fuel path p = some (.ok q)) :
    ∃ before' path', Leads dirs before p path before' q path' ∧ AtEnd path' ∧ ¬ q.isDir := by
  induction fuel generalizing before p path with
  | zero => cases hfound
  | succ fuel ih =>
    by_cases hend : AtEnd path
    · have hlast := hend
      unfold AtEnd at hend
      rw [fatDir, if_pos hend] at hfound
      split at hfound
      next => cases hfound
      next hfile =>
        cases hfound
        exact ⟨before, path, .here _ _ _, hlast, hfile⟩
    by_cases hdir : p.isDir
    · rw [fatDir_more hend hdir] at hfound
      have hsame := h.findEntry_eq (hclear before p path (.here _ _ _) hend hdir) (dirs p.fileCluster).length
      rw [List.take_length] at hsame
      generalize hfirst : firstNamed (component path) before (dirs p.fileCluster) = first at hsame
      generalize findEntry (component path) (dirs p.fileCluster) p.run = found at hsame hfound
      cases hsame with
      | none => cases hfound
      | @some found first hsame =>
        obtain ⟨e, before₁⟩ := first
        obtain ⟨e', run⟩ := found
        obtain ⟨hentry, hreads⟩ := hsame
        obtain rfl : e' = e := hentry
        have hdown (before' : List DirBuf) (q' : Place) (path' : List Byte)
            (hrest : Leads dirs before₁ (e'.place run) (behind path) before' q' path') : Leads dirs before p path before' q' path' :=
          .down hend hdir hfirst hrest
        have hway : ClearWay dirs before₁ (e'.place run) (behind path) :=
          fun before' q' path' hleads => hclear before' q' path' (hdown _ _ _ hleads)
        obtain ⟨before', path', hleads, hlast⟩ := ih (p := e'.place run) hreads hway hfound
        exact ⟨before', path', hdown _ _ _ hleads, hlast⟩
    · unfold AtEnd at hend
      rw [fatDir, if_neg hend, if_pos hdir] at hfound
      cases hfound

end Path

/-! ## A file that has been created again -/

/-- The file `A`. -/
def aliasEntry : DirBuf := fun i => if i = 0 then 0x41 else if i < 11 then 0x20 else 0

/-- The only piece of the long name `b`, with the checksum of `A`. -/
def pieceEntry : DirBuf :=
  fun i => if i = 0 then 0x41 else if i = 1 then 0x62 else if i = 11 then 0x0F else if i = 13 then aliasEntry.sum else 0

/-- The file that had the long name, deleted. -/
def deletedEntry : DirBuf := fun i => if i = 0 then 0xE5 else if i < 11 then 0x20 else 0

theorem pieceEntry_pending : Pending 1 aliasEntry.sum.toNat [pieceEntry] [pieceEntry] false := by
  have hfirst : Pending 1 aliasEntry.sum.toNat [pieceEntry] [pieceEntry] (decide (pieceEntry.id ≠ 0x40 + 1)) :=
    .first (by decide) (by decide) (by decide) Nat.one_pos (by decide)
  exact hfirst

/-- The long name is the file's. -/
theorem pieceEntry_clear : ¬ Misled [0x62] [] [pieceEntry, aliasEntry] := by
  rintro ⟨-, hlong | hbehind⟩
  · exact hlong.1 (by decide)
  · obtain ⟨-, halias | hbehind⟩ := hbehind.2
    · obtain ⟨-, -, -, n, run, interrupted, hpending, -, -, hwrong⟩ := halias
      obtain ⟨-, -, rfl, rfl⟩ := hpending.unique pieceEntry_pending
      revert hwrong
      decide
    · exact hbehind.2

theorem firstNamed_piece : firstNamed [0x62] [] [pieceEntry, aliasEntry] = some (aliasEntry, [aliasEntry, pieceEntry]) := by
  have hpiece : ¬ Named [0x62] [] pieceEntry := fun hnamed => hnamed.1 (by decide)
  have hlong : HasLongName [pieceEntry] aliasEntry [0x62] := Pending.hasLongName.2 ⟨1, [pieceEntry], pieceEntry_pending, rfl, by decide⟩
  have halias : Named [0x62] [pieceEntry] aliasEntry := ⟨by decide, by decide, .inl hlong⟩
  rw [firstNamed, if_neg (by decide), if_neg hpiece, firstNamed, if_neg (by decide), if_pos halias]

theorem findEntry_firstNamed_piece : (findEntry [0x62] [pieceEntry, aliasEntry] (.start fun _ => 0)).map Prod.fst = some aliasEntry := by
  have hall := (findEntry_firstNamed (.start fun _ => 0) [0x62] [pieceEntry, aliasEntry]).2 pieceEntry_clear 2
  rw [List.take_of_length_le (Nat.le_refl 2), firstNamed_piece] at hall
  exact hall

/-- A file with the name of a deleted one gets its long name, too. -/
theorem findEntry_deleted : ¬ ∀ k, (findEntry [0x62] ([pieceEntry, deletedEntry, aliasEntry].take k) (.start fun _ => 0)).map Prod.fst =
    (firstNamed [0x62] [] ([pieceEntry, deletedEntry, aliasEntry].take k)).map Prod.fst := by
  intro hall
  have hpending : Pending 1 aliasEntry.sum.toNat [deletedEntry, pieceEntry] [pieceEntry] true :=
    .other pieceEntry_pending (by decide) fun hvalid => absurd hvalid (by decide)
  have hpiece : ¬ Named [0x62] [] pieceEntry := fun hnamed => hnamed.1 (by decide)
  have hdeleted : ¬ Named [0x62] [pieceEntry] deletedEntry := fun hnamed => absurd hnamed.2.1 (by decide)
  have halias : Misleads [0x62] [deletedEntry, pieceEntry] aliasEntry :=
    ⟨by decide, by decide, by decide, 1, [pieceEntry], true, hpending, rfl, by decide, .inl rfl⟩
  have hmisled : Misled [0x62] [] [pieceEntry, deletedEntry, aliasEntry] :=
    ⟨by decide, .inr ⟨hpiece, by decide, .inr ⟨hdeleted, by decide, .inl halias⟩⟩⟩
  obtain ⟨k, hfound, hnone⟩ := (Reads.start fun _ => 0).misled hmisled
  have heq := hall k
  rw [hnone, Option.map_none, Option.map_eq_none_iff] at heq
  rw [heq] at hfound
  cases hfound

end TrustedGrub.Fat
