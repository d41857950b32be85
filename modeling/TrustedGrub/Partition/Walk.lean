import TrustedGrub.Partition.Next

/-!
# The walk over the slices

What `next_pc_slice` looks at is the `Place` that a cursor stands at. The walk from place
to place passes every slice that `next_partition` returns, whatever the labels in them
hold.
-/

namespace TrustedGrub.Partition
open Disk (GrubError)

/-! ## Labels -/

theorem firstBsd_some {table : Buffer} {nparts first i : Nat} (h : firstBsd table nparts first = some i) :
    first ≤ i ∧ i < nparts ∧ bsdPartType table i ≠ 0 := by
  unfold firstBsd at h
  rw [List.find?_range'_eq_some] at h
  obtain ⟨htype, hmem, -⟩ := h
  have hrange := List.mem_range'_1.1 hmem
  exact ⟨hrange.1, by omega, of_decide_eq_true htype⟩

/-- The search stops at a partition in use, if it does not stop before. -/
theorem firstBsd_le {table : Buffer} {nparts first i : Nat} (hfirst : first ≤ i) (hi : i < nparts) (htype : bsdPartType table i ≠ 0) :
    ∃ j ≤ i, firstBsd table nparts first = some j := by
  cases h : firstBsd table nparts first with
  | none =>
    unfold firstBsd at h
    rw [List.find?_range'_eq_none] at h
    have hunused := h i hfirst (by omega)
    rw [Bool.not_eq_true', decide_eq_false_iff_not] at hunused
    exact absurd htype hunused
  | some j =>
    refine ⟨j, ?_, rfl⟩
    unfold firstBsd at h
    rw [List.find?_range'_eq_some] at h
    obtain ⟨-, -, hbefore⟩ := h
    by_contra hlt
    have hunused := hbefore i hfirst (by omega)
    rw [Bool.not_eq_true', decide_eq_false_iff_not] at hunused
    exact hunused htype

theorem byte_masked {n : Nat} (h : n < 0x100) : n &&& 0xFF = n := by
  rw [show (0xFF : Nat) = 2 ^ 8 - 1 from rfl, Nat.and_two_pow_sub_one_eq_mod, Nat.mod_eq_of_lt h]

theorem shifted_masked (n : Nat) {k : Nat} (hk : 8 ≤ k) : n <<< k &&& 0xFF = 0 := by
  rw [show (0xFF : Nat) = 2 ^ 8 - 1 from rfl, Nat.and_two_pow_sub_one_eq_mod, Nat.shiftLeft_eq]
  exact Nat.mod_eq_zero_of_dvd (Dvd.dvd.mul_left (Nat.pow_dvd_pow 2 hk) n)

/-- The BSD number of a word is replaced. -/
theorem word_replace {slice bsd i : Nat} (hs : slice < 0x100) (hb : bsd < 0x100) :
    word slice bsd &&& 0xFF00FF ||| i <<< 8 = word slice i := by
  have hmask : (0xFF00FF : Nat) = 0xFF <<< 16 ||| 0xFF := by decide
  have hslice : slice <<< 16 &&& 0xFF00FF = slice <<< 16 := by
    rw [hmask, Nat.and_or_distrib_left, ← Nat.shiftLeft_and_distrib, byte_masked hs, shifted_masked _ (by decide), Nat.or_zero]
  have hbsd : bsd <<< 8 &&& 0xFF00FF = 0 := by
    have hhigh : bsd <<< 8 &&& 0xFF <<< 16 = 0 := by
      have hsplit : (0xFF : Nat) <<< 16 = (0xFF <<< 8) <<< 8 := by decide
      have hzero : bsd &&& 0xFF <<< 8 = 0 := by
        apply Nat.eq_of_testBit_eq
        intro j
        rw [Nat.testBit_and, Nat.testBit_shiftLeft, Nat.zero_testBit]
        by_cases hj : 8 ≤ j
        · rw [Nat.testBit_lt_two_pow (Nat.lt_of_lt_of_le hb (Nat.pow_le_pow_right Nat.two_pos hj)), Bool.false_and]
        · simp [hj]
      rw [hsplit, ← Nat.shiftLeft_and_distrib, hzero, Nat.zero_shiftLeft]
    rw [hmask, Nat.and_or_distrib_left, hhigh, shifted_masked _ (by decide), Nat.or_zero]
  unfold word
  rw [Nat.and_or_distrib_right, Nat.and_or_distrib_right, hslice, hbsd, Nat.or_zero, Nat.or_assoc, Nat.or_assoc, Nat.or_comm (i <<< 8)]
  rfl

/-! ## Places -/

/-- Where the walk stands: the table, the base of the logical ones, the entry, and how
many numbers it has given. -/
structure Place where
  offset : Nat
  extOffset : Nat
  entry : Int
  count : Nat

/-- Before the first entry of the MBR. -/
def Place.start : Place := ⟨0, 0, -1, 0⟩

/-- A slice as it is returned. -/
structure Slice where
  no : Nat
  type : Nat
  start : Nat
  len : Nat

/-- The number 0xFF is that of a cursor that has not been used yet. -/
def Cursor.place (c : Cursor) : Place :=
  if sliceNo c.partition = 0xFF then .start else ⟨c.offset, c.extOffset, c.entry, sliceNo c.partition + 1⟩

/-- A valid table. -/
def Drive.table (d : Drive) (offset : Nat) : Option Buffer :=
  match d.rawread offset with
  | .ok mbr => if pcMbrCheckSig mbr then some mbr else none
  | .error _ => none

/-- The first five entries are numbered whatever they are. -/
def counted (count type : Nat) : Nat :=
  if count < 5 ∨ (¬ isPcSliceTypeExtended type ∧ type ≠ pcSliceTypeNone) then count + 1 else count

/-- The slice of the next entry of the table. -/
def Place.slice (pl : Place) (mbr : Buffer) : Slice :=
  let entry := (pl.entry + 1).toNat
  { no := counted pl.count (pcSliceType mbr entry) - 1
    type := pcSliceType mbr entry
    start := (pl.offset + pcSliceStart mbr entry) % 2 ^ 32
    len := pcSliceLength mbr entry }

/-- The place of the next entry of the table. -/
def Place.entered (pl : Place) (mbr : Buffer) : Place :=
  let count := counted pl.count (pcSliceType mbr (pl.entry + 1).toNat)
  if count = 0x100 then .start else ⟨pl.offset, pl.extOffset, pl.entry + 1, count⟩

/-- Before the first entry of the table that entry `i` refers to. -/
def Place.link (pl : Place) (mbr : Buffer) (i : Nat) : Place :=
  let offset := (pl.extOffset + pcSliceStart mbr i) % 2 ^ 32
  ⟨offset, if pl.extOffset = 0 then offset else pl.extOffset, -1, pl.count⟩

/-- The next entry, or the first one of the next table. -/
def Drive.nextSlice (d : Drive) (pl : Place) : Option (Place × Slice) :=
  (d.table pl.offset).bind fun mbr =>
    if pl.entry + 1 = pcSliceMax then
      (extendedEntry mbr).bind fun i => (d.table (pl.link mbr i).offset).map fun mbr' =>
        ((pl.link mbr i).entered mbr', (pl.link mbr i).slice mbr')
    else some (pl.entered mbr, pl.slice mbr)

/-- The cursor has just been put on the slice. -/
structure Cursor.AtSlice (c : Cursor) (pl : Place) (s : Slice) : Prop where
  partition : c.partition = word s.no 0xFF
  no : s.no < 0x100
  type : c.type = s.type
  start : c.start = s.start
  len : c.len = s.len
  place : c.place = pl

theorem Cursor.begun_place (c : Cursor) :
    c.begun.offset = c.place.offset ∧ c.begun.extOffset = c.place.extOffset ∧ c.begun.entry = c.place.entry := by
  unfold Cursor.begun Cursor.place
  split <;> exact ⟨rfl, rfl, rfl⟩

theorem Cursor.pcSliceNo_place (c : Cursor) : c.pcSliceNo = c.place.count - 1 := by
  unfold Cursor.pcSliceNo Cursor.place
  split
  · rfl
  · simp

theorem Cursor.place_count_lt (c : Cursor) : c.place.count < 0x100 := by
  unfold Cursor.place
  split
  · decide
  next h =>
    rw [sliceNo_eq] at h
    simp only [sliceNo_eq]
    omega

theorem numbered_place (c : Cursor) (type : Nat) : numbered c.pcSliceNo type = counted c.place.count type - 1 := by
  unfold numbered counted
  rw [c.pcSliceNo_place]
  have hlt : ((c.place.count : Int) - 1 < pcSliceMax) = (c.place.count < 5) := by
    unfold pcSliceMax
    apply propext
    omega
  simp only [hlt]
  split <;> omega

theorem counted_pos (count type : Nat) : 0 < counted count type := by
  unfold counted
  split <;> omega

theorem counted_le (count type : Nat) : counted count type ≤ count + 1 := by
  unfold counted
  split <;> omega

/-- The next entry of a table. -/
theorem Cursor.entered_atSlice (c : Cursor) (mbr : Buffer) :
    (c.begun.entered c.pcSliceNo mbr).AtSlice (c.place.entered mbr) (c.place.slice mbr) := by
  obtain ⟨hoffset, hext, hentry⟩ := c.begun_place
  have hcount := c.place_count_lt
  have hpos := counted_pos c.place.count (pcSliceType mbr (c.place.entry + 1).toNat)
  have hle := counted_le c.place.count (pcSliceType mbr (c.place.entry + 1).toNat)
  have hword : (c.begun.entered c.pcSliceNo mbr).partition = word (c.place.slice mbr).no 0xFF := by
    simp only [Cursor.entered, Place.slice, hentry, numbered_place, word]
    rw [Nat.or_assoc]
    congr 2
    omega
  have hno : (c.place.slice mbr).no < 0x100 := by
    simp only [Place.slice]
    omega
  refine ⟨hword, hno, ?_, ?_, ?_, ?_⟩
  · simp only [Cursor.entered, Place.slice, hentry]
  · simp only [Cursor.entered, Place.slice, hentry, hoffset]
  · simp only [Cursor.entered, Place.slice, hentry]
  · have hslice : sliceNo (c.begun.entered c.pcSliceNo mbr).partition = (c.place.slice mbr).no := by
      rw [hword, sliceNo_eq, word_eq (by decide)]
      omega
    have hplace : (c.begun.entered c.pcSliceNo mbr).place =
        if (c.place.slice mbr).no = 0xFF then .start
        else ⟨c.place.offset, c.place.extOffset, c.place.entry + 1, (c.place.slice mbr).no + 1⟩ := by
      rw [← hslice, ← hoffset, ← hext, ← hentry]
      rfl
    have hcounted : (c.place.slice mbr).no + 1 = counted c.place.count (pcSliceType mbr (c.place.entry + 1).toNat) := by
      simp only [Place.slice]
      omega
    rw [hplace]
    unfold Place.entered
    rw [← hcounted]
    simp only [Nat.reduceEqDiff]

theorem table_read {d : Drive} {offset : Nat} {mbr : Buffer} (h : d.table offset = some mbr) :
    d.rawread offset = .ok mbr ∧ pcMbrCheckSig mbr = true := by
  unfold Drive.table at h
  split at h
  next buf hread =>
    split at h
    next hsig =>
      obtain rfl := Option.some.inj h
      exact ⟨hread, hsig⟩
    next => cases h
  next => cases h

theorem nextPcSliceFrom_broken {restart : Cursor → Except GrubError Cursor} {d : Drive} {c : Cursor}
    (h : d.table c.place.offset = none) : ∃ err, nextPcSliceFrom restart d c = .error err := by
  unfold Drive.table at h
  unfold nextPcSliceFrom
  rw [c.begun_place.1]
  split at h
  next buf hread =>
    rw [hread]
    split at h
    next => cases h
    next hsig => exact ⟨_, if_pos hsig⟩
  next err hread =>
    rw [hread]
    exact ⟨err, rfl⟩

theorem nextPcSliceFrom_table {restart : Cursor → Except GrubError Cursor} {d : Drive} {c : Cursor} {mbr : Buffer}
    (h : d.table c.place.offset = some mbr) :
    nextPcSliceFrom restart d c =
      if c.place.entry + 1 = pcSliceMax then
        match extendedEntry mbr with
        | some i => restart (c.begun.linked mbr i)
        | none => .error .noPart
      else .ok (c.begun.entered c.pcSliceNo mbr) := by
  obtain ⟨hoffset, -, hentry⟩ := c.begun_place
  obtain ⟨hread, hsig⟩ := table_read h
  unfold nextPcSliceFrom
  rw [hoffset, hread, hentry]
  exact if_neg (not_not_intro hsig)

theorem Cursor.linked_place {c : Cursor} (hentry : c.place.entry + 1 = pcSliceMax) (mbr : Buffer) (i : Nat) :
    (c.begun.linked mbr i).place = c.place.link mbr i := by
  have hfirst : sliceNo c.partition ≠ 0xFF := by
    intro hfirst
    rw [Cursor.place, if_pos hfirst] at hentry
    cases hentry
  have hbegun : c.begun = c := if_neg hfirst
  have hplace : c.place = ⟨c.offset, c.extOffset, c.entry, sliceNo c.partition + 1⟩ := if_neg hfirst
  rw [hbegun, hplace]
  exact if_neg hfirst

/-- **What `next_pc_slice` does**, in terms of the place. -/
theorem nextPcSlice_some {d : Drive} {c : Cursor} {pl : Place} {s : Slice} (h : d.nextSlice c.place = some (pl, s)) :
    ∃ c', nextPcSlice d c = .ok c' ∧ c'.AtSlice pl s := by
  unfold Drive.nextSlice at h
  obtain ⟨mbr, htable, h⟩ := Option.bind_eq_some_iff.1 h
  rw [nextPcSlice_eq, nextPcSliceFrom_table htable]
  split at h
  next hlast =>
    obtain ⟨i, hextended, h⟩ := Option.bind_eq_some_iff.1 h
    obtain ⟨mbr', htable', h⟩ := Option.map_eq_some_iff.1 h
    obtain ⟨rfl, rfl⟩ := Prod.mk.inj h
    have hplace := Cursor.linked_place hlast mbr i
    rw [← hplace] at htable' ⊢
    rw [if_pos hlast, hextended]
    dsimp only
    have hstart : (c.begun.linked mbr i).place.entry + 1 ≠ pcSliceMax := by
      rw [hplace]
      simp [Place.link, pcSliceMax]
    rw [nextPcSlice_eq, nextPcSliceFrom_table htable', if_neg hstart]
    exact ⟨_, rfl, Cursor.entered_atSlice _ _⟩
  next hentry =>
    obtain ⟨rfl, rfl⟩ := Prod.mk.inj (Option.some.inj h)
    rw [if_neg hentry]
    exact ⟨_, rfl, c.entered_atSlice mbr⟩

theorem nextPcSlice_none {d : Drive} {c : Cursor} (h : d.nextSlice c.place = none) : ∃ err, nextPcSlice d c = .error err := by
  rw [nextPcSlice_eq]
  cases htable : d.table c.place.offset with
  | none => exact nextPcSliceFrom_broken htable
  | some mbr =>
    rw [nextPcSliceFrom_table htable]
    unfold Drive.nextSlice at h
    rw [htable, Option.bind_some] at h
    split at h
    next hlast =>
      rw [if_pos hlast]
      cases hextended : extendedEntry mbr with
      | none => exact ⟨_, rfl⟩
      | some i =>
        rw [hextended, Option.bind_some, Option.map_eq_none_iff, ← Cursor.linked_place hlast] at h
        dsimp only
        rw [nextPcSlice_eq]
        exact nextPcSliceFrom_broken h
    next => cases h

/-- A slice as an entry of a table gives it. -/
structure Slice.Fits (s : Slice) : Prop where
  no : s.no < 0x100
  type : s.type < 0x100
  start : s.start < 2 ^ 32
  len : s.len < 2 ^ 32

theorem Place.slice_fits {pl : Place} (h : pl.count < 0x100) (mbr : Buffer) : (pl.slice mbr).Fits := by
  have hle := counted_le pl.count (pcSliceType mbr (pl.entry + 1).toNat)
  refine ⟨?_, (mbr _).isLt, Nat.mod_lt _ (by decide), le32_lt _ _⟩
  simp only [Place.slice]
  omega

theorem nextSlice_fits {d : Drive} {pl pl' : Place} {s : Slice} (h : d.nextSlice pl = some (pl', s)) (hcount : pl.count < 0x100) :
    s.Fits := by
  unfold Drive.nextSlice at h
  obtain ⟨mbr, -, h⟩ := Option.bind_eq_some_iff.1 h
  split at h
  · obtain ⟨i, -, h⟩ := Option.bind_eq_some_iff.1 h
    obtain ⟨mbr', -, h⟩ := Option.map_eq_some_iff.1 h
    obtain ⟨-, rfl⟩ := Prod.mk.inj h
    exact (pl.link mbr i).slice_fits hcount mbr'
  · obtain ⟨-, rfl⟩ := Prod.mk.inj (Option.some.inj h)
    exact Place.slice_fits hcount _

/-- The slices still to come, as the walk passes them. -/
inductive Slices (d : Drive) : Place → List Slice → Prop where
  | stop {pl : Place} (h : d.nextSlice pl = none) : Slices d pl []
  | next {pl pl' : Place} {s : Slice} {rest : List Slice} (h : d.nextSlice pl = some (pl', s)) (later : Slices d pl' rest) :
      Slices d pl (s :: rest)

theorem Slices.unique {d : Drive} {pl : Place} {l l' : List Slice} (h : Slices d pl l) (h' : Slices d pl l') : l = l' := by
  induction h generalizing l' with
  | stop h =>
    cases h' with
    | stop _ => rfl
    | next h' _ =>
      rw [h] at h'
      cases h'
  | next h _ ih =>
    cases h' with
    | stop h' =>
      rw [h] at h'
      cases h'
    | next h' rest' =>
      rw [h] at h'
      obtain ⟨rfl, rfl⟩ := Prod.mk.inj (Option.some.inj h')
      rw [ih rest']

end TrustedGrub.Partition
