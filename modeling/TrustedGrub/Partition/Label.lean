import TrustedGrub.Partition.Enumeration

/-!
# The scan of a BSD label

The partitions of a slice, one call of `next_bsd_partition` after the other, and the bytes of
the label that the calls read. The sector holds 22 entries; nothing keeps the count in the
label from being larger.
-/

namespace TrustedGrub.Partition
open Disk (GrubError sectorSize)

/-! ## What a call reads -/

/-- The entries that the loop looks at: no entry before them is in use. -/
def lookedAt (table : Buffer) (nparts first : Nat) : List Nat :=
  (List.range' first (nparts - first)).filter fun j => ∀ m ∈ List.range' first (j - first), bsdPartType table m = 0

/-- The places of the bytes that the loop reads: the count of the entries, their types, and the
length and the start of the entry that is in use. -/
def loopReads (d : Drive) (table : Buffer) (nparts first : Nat) : List Nat :=
  [138, 139] ++ (lookedAt table nparts first).map (fun j => 148 + 12 + 16 * j) ++
    match firstBsd table nparts first with
    | some i => List.range' (148 + 16 * i) 8 ++ if d.hard then [4, 5] else []
    | none => []

/-- The places that `next_bsd_partition` reads in the sector of the label. -/
def Cursor.reads (c : Cursor) (d : Drive) (beyond : Buffer) : List Nat :=
  (if bsdPartNo c.partition = 0xFF ∧ bsdLabelSector + 1 ≤ c.len then List.range 4 else []) ++
    match c.label d with
    | some label => loopReads d (withBeyond label beyond) (bsdLabelNparts label) c.nextBsdNo
    | none => []

/-- The scan: the places that are read, and the cursors that are returned. The memory behind the
sector may be another one at each call. -/
def labelScan (d : Drive) (beyond : Nat → Buffer) : Nat → Cursor → Option (List Nat × List Cursor)
  | 0, _ => none
  | fuel + 1, c =>
    match nextBsdPartition d (beyond 0) c with
    | .error _ => some (c.reads d (beyond 0), [])
    | .ok c' => (labelScan d (fun n => beyond (n + 1)) fuel c').map fun (reads, cs) => (c.reads d (beyond 0) ++ reads, c' :: cs)

/-- The entries in use of the label that is looked at, from the next one on. -/
def Cursor.parts (c : Cursor) (d : Drive) : List (Nat × Nat × Nat × Nat) :=
  match c.label d with
  | some label =>
    ((List.range' c.nextBsdNo (bsdLabelNparts label - c.nextBsdNo)).filter fun i => bsdPartType label i ≠ 0).map fun i =>
      (i, bsdPartType label i, bsdPartStart label i, bsdPartLength label i)
  | none => []

/-- The number of the BSD partition, its type, and where it lies. -/
def Cursor.part (c : Cursor) : Nat × Nat × Nat × Nat := (bsdPartNo c.partition, c.type >>> 8, c.start, c.len)

/-- The scan ends, reads the sector and nothing behind it, and returns each entry in use once, in
their order, by a number that fits, in the slice where it began. -/
def Scanned (d : Drive) (beyond : Nat → Buffer) (c : Cursor) : Prop :=
  ∃ fuel reads cs, labelScan d beyond fuel c = some (reads, cs) ∧ (∀ off ∈ reads, off < sectorSize) ∧
    cs.map Cursor.part = c.parts d ∧ ∀ c' ∈ cs, sliceNo c'.partition = sliceNo c.partition

/-! ## The entries of the sector -/

section Sector
variable {label : Buffer} {nparts first i j : Nat}

theorem mem_lookedAt {table : Buffer} : j ∈ lookedAt table nparts first ↔
    (first ≤ j ∧ j < nparts) ∧ ∀ m, first ≤ m → m < j → bsdPartType table m = 0 := by
  simp only [lookedAt, List.mem_filter, List.mem_range'_1, decide_eq_true_iff]
  constructor
  · rintro ⟨⟨hle, hlt⟩, hbefore⟩
    exact ⟨⟨hle, by omega⟩, fun m hm hlt => hbefore m ⟨hm, by omega⟩⟩
  · rintro ⟨⟨hle, hlt⟩, hbefore⟩
    exact ⟨⟨hle, by omega⟩, fun m hm => hbefore m hm.1 (by omega)⟩

/-- An entry that lies in the sector. -/
theorem withBeyond_entry (label beyond : Buffer) (hi : i < 22) :
    bsdPartType (withBeyond label beyond) i = bsdPartType label i ∧ bsdPartStart (withBeyond label beyond) i = bsdPartStart label i ∧
      bsdPartLength (withBeyond label beyond) i = bsdPartLength label i := by
  have hbyte : ∀ k < 16, withBeyond label beyond (148 + 16 * i + k) = label (148 + 16 * i + k) :=
    fun k hk => if_pos (by rw [sectorSize]; omega)
  have hword : ∀ k ≤ 12, le32 (withBeyond label beyond) (148 + 16 * i + k) = le32 label (148 + 16 * i + k) := by
    intro k hk
    simp only [le32, le16, Nat.add_assoc (148 + 16 * i)]
    rw [hbyte _ (by omega), hbyte _ (by omega), hbyte _ (by omega), hbyte _ (by omega)]
  have hplace : ∀ k, 148 + k + 16 * i = 148 + 16 * i + k := fun k => by omega
  refine ⟨?_, ?_, ?_⟩
  · rw [bsdPartType, bsdPartType, hplace, hbyte 12 (by decide)]
  · rw [bsdPartStart, bsdPartStart, hplace, hword 4 (by decide)]
  · exact hword 0 (by decide)

/-- Before the first entry in use there is none, and the others come behind it. -/
theorem filter_of_find? {p : Nat → Bool} {k : Nat} (h : (List.range' first k).find? p = some i) :
    (List.range' first k).filter p = i :: (List.range' (i + 1) (first + k - (i + 1))).filter p := by
  induction k generalizing first with
  | zero => cases h
  | succ k ih =>
    rw [List.range'_succ] at h ⊢
    rw [List.find?_cons] at h
    by_cases hp : p first = true
    · simp only [hp] at h
      obtain rfl := Option.some.inj h
      rw [List.filter_cons_of_pos hp, show first + (k + 1) - (first + 1) = k by omega]
    · simp only [Bool.eq_false_iff.2 hp] at h
      rw [List.filter_cons_of_neg hp, ih h, Nat.add_right_comm, Nat.add_assoc]

end Sector

/-! ## Scans -/

section Scans
variable {d : Drive} {c : Cursor} {label : Buffer} {beyond : Nat → Buffer}

/-- The cursor that a call returns. -/
def Cursor.found (c : Cursor) (d : Drive) (label beyond : Buffer) (i : Nat) : Cursor :=
  { c with buf := label }.atBsd d (withBeyond label beyond) i

theorem nextBsdPartition_some {b : Buffer} {i : Nat} (hlabel : c.label d = some label)
    (hfirst : firstBsd (withBeyond label b) (bsdLabelNparts label) c.nextBsdNo = some i) :
    nextBsdPartition d b c = .ok (c.found d label b i) := by
  rw [nextBsdPartition_label hlabel, searchBsd]
  dsimp only
  rw [hfirst]
  rfl

theorem nextBsdPartition_end {b : Buffer} (hlabel : c.label d = some label)
    (hfirst : firstBsd (withBeyond label b) (bsdLabelNparts label) c.nextBsdNo = none) : nextBsdPartition d b c = .error .noPart := by
  rw [nextBsdPartition_label hlabel, searchBsd]
  dsimp only
  rw [hfirst]

/-- Where a call leaves the scan. -/
theorem Cursor.Worded.found (h : c.Worded) (d : Drive) (label b : Buffer) {i : Nat} (hi : i < 0xFF) :
    (c.found d label b i).Worded ∧ sliceNo (c.found d label b i).partition = sliceNo c.partition ∧
      bsdPartNo (c.found d label b i).partition = i ∧ (c.found d label b i).label d = some label ∧
        (c.found d label b i).nextBsdNo = i + 1 := by
  have hpartition : (c.found d label b i).partition = word (sliceNo c.partition) i := by
    obtain ⟨slice, bsd, hs, hb, hword⟩ := h
    show c.partition &&& 0xFF00FF ||| i <<< 8 = _
    rw [hword, sliceNo_word hs hb, word_replace hs hb]
  have hi' : i < 0x100 := Nat.lt_of_lt_of_le hi (by decide)
  have hno : bsdPartNo (c.found d label b i).partition = i := by rw [hpartition, bsdPartNo_word hi']
  have hne : bsdPartNo (c.found d label b i).partition ≠ 0xFF := by omega
  refine ⟨⟨_, i, sliceNo_lt _, hi', hpartition⟩, by rw [hpartition, sliceNo_word (sliceNo_lt _) hi'], hno, ?_, ?_⟩
  · rw [Cursor.label, if_neg hne]
    rfl
  · rw [Cursor.nextBsdNo, if_neg hne, hno]

theorem found_part {b : Buffer} {i : Nat} (hi : i < 22) (hno : bsdPartNo (c.found d label b i).partition = i) :
    (c.found d label b i).part = (i, bsdPartType label i, bsdPartStart label i, bsdPartLength label i) := by
  obtain ⟨htype, hstart, hlength⟩ := withBeyond_entry label b hi
  have hshift : (bsdPartType label i <<< 8 ||| c.type &&& 0xFF) >>> 8 = bsdPartType label i := by
    rw [Nat.shiftRight_or_distrib, Nat.shiftLeft_shiftRight, Nat.shiftRight_eq_zero _ _ (Nat.lt_succ_of_le Nat.and_le_right), Nat.or_zero]
  rw [Cursor.part, hno]
  show (i, (bsdPartType (withBeyond label b) i <<< 8 ||| c.type &&& 0xFF) >>> 8, bsdPartStart (withBeyond label b) i,
    bsdPartLength (withBeyond label b) i) = _
  rw [htype, hstart, hlength, hshift]

/-- Nothing is read but the count and the entries, all of them in the sector. -/
theorem reads_in_sector (hlabel : c.label d = some label) (hfits : bsdLabelNparts label ≤ 22) (b : Buffer) :
    ∀ off ∈ c.reads d b, off < sectorSize := by
  intro off hoff
  rw [Cursor.reads, hlabel, List.mem_append] at hoff
  have hsector : sectorSize = 512 := rfl
  obtain hmagic | hloop := hoff
  · split at hmagic
    · have hlt := List.mem_range.1 hmagic
      omega
    · cases hmagic
  simp only [loopReads, List.mem_append] at hloop
  obtain (hcount | htypes) | hfound := hloop
  · simp only [List.mem_cons, List.not_mem_nil, or_false] at hcount
    omega
  · obtain ⟨j, hj, rfl⟩ := List.mem_map.1 htypes
    have hlt := (mem_lookedAt.1 hj).1.2
    omega
  · split at hfound
    next i hfirst =>
      have hlt := (firstBsd_some hfirst).2.1
      obtain hentry | hdtype := List.mem_append.1 hfound
      · have hrange := List.mem_range'_1.1 hentry
        omega
      · split at hdtype
        · simp only [List.mem_cons, List.not_mem_nil, or_false] at hdtype
          omega
        · cases hdtype
    next => cases hfound

/-- **A label of which all entries lie in the sector** is scanned from any entry on. -/
theorem scanned_label (hword : c.Worded) (hlabel : c.label d = some label) (hfits : bsdLabelNparts label ≤ 22) (beyond : Nat → Buffer) :
    Scanned d beyond c := by
  generalize hleft : bsdLabelNparts label - c.nextBsdNo = left
  induction left using Nat.strong_induction_on generalizing c beyond with
  | _ left ih =>
    have hfilter :
        (List.range' c.nextBsdNo (bsdLabelNparts label - c.nextBsdNo)).filter (fun j => bsdPartType (withBeyond label (beyond 0)) j ≠ 0) =
        (List.range' c.nextBsdNo (bsdLabelNparts label - c.nextBsdNo)).filter fun j => bsdPartType label j ≠ 0 := by
      apply List.filter_congr
      intro j hj
      have hrange := List.mem_range'_1.1 hj
      rw [(withBeyond_entry label (beyond 0) (by omega)).1]
    have hfind : firstBsd (withBeyond label (beyond 0)) (bsdLabelNparts label) c.nextBsdNo =
        (List.range' c.nextBsdNo (bsdLabelNparts label - c.nextBsdNo)).find? fun j => bsdPartType label j ≠ 0 := by
      rw [firstBsd, ← List.head?_filter, hfilter, List.head?_filter]
    generalize hfirst : firstBsd (withBeyond label (beyond 0)) (bsdLabelNparts label) c.nextBsdNo = first at hfind
    obtain _ | i := first
    · refine ⟨1, _, [], by rw [labelScan, nextBsdPartition_end hlabel hfirst], reads_in_sector hlabel hfits _, ?_,
      fun c' hc' => absurd hc' List.not_mem_nil⟩
      rw [Cursor.parts, hlabel]
      dsimp only
      rw [List.filter_eq_nil_iff.2 (List.find?_eq_none.1 hfind.symm)]
      rfl
    · obtain ⟨hle, hlt, -⟩ := firstBsd_some hfirst
      obtain ⟨hword', hslice, hno, hlabel', hnext⟩ := hword.found d label (beyond 0) (show i < 0xFF by omega)
      obtain ⟨fuel, reads, cs, hscan, hreads, hparts, hslices⟩ := ih _ (by omega) hword' hlabel' (fun n => beyond (n + 1)) rfl
      refine ⟨fuel + 1, c.reads d (beyond 0) ++ reads, c.found d label (beyond 0) i :: cs, ?_, ?_, ?_, ?_⟩
      · rw [labelScan, nextBsdPartition_some hlabel hfirst]
        dsimp only
        rw [hscan]
        rfl
      · exact fun off hoff => (List.mem_append.1 hoff).elim (reads_in_sector hlabel hfits _ off) (hreads off)
      · rw [Cursor.parts, hlabel', hnext] at hparts
        rw [List.map_cons, hparts, Cursor.parts, hlabel, found_part (by omega) hno]
        dsimp only
        rw [filter_of_find? hfind.symm, List.map_cons,
          show c.nextBsdNo + (bsdLabelNparts label - c.nextBsdNo) = bsdLabelNparts label by omega]
      · intro c' hc'
        obtain rfl | hc' := List.mem_cons.1 hc'
        · exact hslice
        · exact (hslices c' hc').trans hslice

/-- The type of the entry behind the sector is looked at, if no entry before it is in use. -/
theorem reads_behind (hlabel : c.label d = some label) (hlarge : 22 < bsdLabelNparts label) (hnext : c.nextBsdNo ≤ 22) {b : Buffer}
    (hbefore : ∀ m, c.nextBsdNo ≤ m → m < 22 → bsdPartType (withBeyond label b) m = 0) : 512 ∈ c.reads d b := by
  have hmem : 22 ∈ lookedAt (withBeyond label b) (bsdLabelNparts label) c.nextBsdNo := mem_lookedAt.2 ⟨⟨hnext, hlarge⟩, hbefore⟩
  rw [Cursor.reads, hlabel]
  apply List.mem_append_right
  simp only [loopReads]
  exact List.mem_append_left _ (List.mem_append_right _ (List.mem_map.2 ⟨22, hmem, rfl⟩))

/-- **A label with more entries than the sector holds** is read behind the sector before the scan
ends. -/
theorem labelScan_behind (hword : c.Worded) (hlabel : c.label d = some label) (hlarge : 22 < bsdLabelNparts label)
    (hnext : c.nextBsdNo ≤ 22)
    {fuel : Nat} {reads : List Nat} {cs : List Cursor} (h : labelScan d beyond fuel c = some (reads, cs)) : 512 ∈ reads := by
  induction fuel generalizing c beyond reads cs with
  | zero => cases h
  | succ fuel ih =>
    generalize hfirst : firstBsd (withBeyond label (beyond 0)) (bsdLabelNparts label) c.nextBsdNo = first
    have hbefore : (∀ i, first = some i → 22 ≤ i) → 512 ∈ c.reads d (beyond 0) := by
      intro hlate
      apply reads_behind hlabel hlarge hnext
      intro m hle hlt
      by_contra hused
      obtain ⟨i, hi, hfound⟩ := firstBsd_le hle (show m < bsdLabelNparts label by omega) hused
      have hbound := hlate i (hfirst.symm.trans hfound)
      omega
    obtain _ | i := first
    · rw [labelScan, nextBsdPartition_end hlabel hfirst] at h
      cases h
      exact hbefore fun i hi => by cases hi
    · rw [labelScan, nextBsdPartition_some hlabel hfirst] at h
      obtain ⟨⟨reads', cs'⟩, hscan, hresult⟩ := Option.map_eq_some_iff.1 h
      cases hresult
      obtain hi | hi := Nat.lt_or_ge i 22
      · obtain ⟨hword', -, -, hlabel', hnext'⟩ := hword.found d label (beyond 0) (show i < 0xFF by omega)
        exact List.mem_append_right _ (ih hword' hlabel' (hnext' ▸ hi) hscan)
      · exact List.mem_append_left _ (hbefore fun j hj => Option.some.inj hj ▸ hi)

/-- **The scan of a slice** stays in the sector, and returns each entry in use once, exactly if
the label has no more than 22 entries. -/
theorem scanned_iff (hword : c.Worded) (hfirst : bsdPartNo c.partition = 0xFF) :
    (∀ beyond, Scanned d beyond c) ↔ ∀ label, d.label c.start c.len = some label → bsdLabelNparts label ≤ 22 := by
  have hlabel : c.label d = d.label c.start c.len := if_pos hfirst
  constructor
  · intro hscanned label hhas
    by_contra hlarge
    obtain ⟨fuel, reads, cs, hscan, hreads, -⟩ := hscanned fun _ _ => 0
    have hnext : c.nextBsdNo ≤ 22 := by
      rw [Cursor.nextBsdNo, if_pos hfirst]
      exact Nat.zero_le 22
    have hlt := hreads _ (labelScan_behind hword (hlabel.trans hhas) (Nat.lt_of_not_le hlarge) hnext hscan)
    exact absurd hlt (by decide)
  · intro hfits beyond
    cases hhas : d.label c.start c.len with
    | some label => exact scanned_label hword (hlabel.trans hhas) (hfits label hhas) beyond
    | none =>
      obtain ⟨err, hend⟩ := nextBsdPartition_none (hlabel.trans hhas) (beyond 0)
      refine ⟨1, _, [], by rw [labelScan, hend], fun off hoff => ?_, by rw [Cursor.parts, hlabel.trans hhas]; rfl,
        fun c' hc' => absurd hc' List.not_mem_nil⟩
      rw [Cursor.reads, hlabel.trans hhas, List.append_nil] at hoff
      split at hoff
      · exact Nat.lt_trans (List.mem_range.1 hoff) (by decide)
      · cases hoff

/-! ### Labels of some counts of entries -/

/-- A label of which only the last entry in the sector is in use. -/
def sampleLabel (nparts : BitVec 8) : Buffer := fun i =>
  if i = 0 then 0x57 else if i = 1 then 0x45 else if i = 2 then 0x56 else if i = 3 then 0x82 else if i = 138 then nparts else
    if i = 496 then 7 else 0

def sampleLabelled (nparts : BitVec 8) : Drive := ⟨0x80, false, fun _ => .ok (sampleLabel nparts)⟩

def sampleSlice : Cursor := ⟨word 0 0xFF, 0xA5, 63, 1000, 0, 0, 0, fun _ => 0, 0⟩

theorem scanned_iff_full : (∀ beyond, Scanned (sampleLabelled 22) beyond sampleSlice) ↔
    ∀ label, (sampleLabelled 22).label sampleSlice.start sampleSlice.len = some label → bsdLabelNparts label ≤ 22 :=
  scanned_iff ⟨0, 0xFF, by decide, by decide, rfl⟩ (by decide)

/-- With one entry more, what lies behind the sector is taken for a partition. -/
theorem sampleLabel_behind : ¬ Scanned (sampleLabelled 23) (fun _ _ => 9) sampleSlice ∧
    (nextBsdPartition (sampleLabelled 23) (fun _ => 9) { sampleSlice with partition := word 0 21, buf := sampleLabel 23 }).toOption.map
      Cursor.part =
      some (22, 9, 0, 0) := by
  constructor
  · rintro ⟨fuel, reads, cs, hscan, hreads, -⟩
    have hword : sampleSlice.Worded := ⟨0, 0xFF, by decide, by decide, rfl⟩
    have hlabel : sampleSlice.label (sampleLabelled 23) = some (sampleLabel 23) := rfl
    have hbehind := labelScan_behind hword hlabel (by decide) (by decide) hscan
    exact absurd (hreads _ hbehind) (by decide)
  · decide +kernel

end Scans

end TrustedGrub.Partition
