import TrustedGrub.Lib.Runs
import TrustedGrub.Partition.Walk

/-!
# Enumerations that end

`next_partition` is called again and again, as `real_open_partition` and its other callers
do, and may find other bytes behind its buffer every time. An enumeration ends exactly
when the walk over the slices does and no label that it meets has more partitions than a
byte can number.
-/

namespace TrustedGrub.Partition
open Disk (GrubError)
open Runs (Halts Step)

variable {d : Drive} {dest : Nat}

/-- A call of `next_partition`, as its callers see it. -/
def call (d : Drive) (dest : Nat) (beyond : Buffer) (c : Cursor) : Option Cursor := (nextPartition d dest beyond c).toOption

@[simp] theorem sliceNo_word {slice bsd : Nat} (hs : slice < 0x100) (hb : bsd < 0x100) : sliceNo (word slice bsd) = slice := by
  rw [sliceNo_eq, word_eq hb]
  omega

@[simp] theorem bsdPartNo_word {slice bsd : Nat} (hb : bsd < 0x100) : bsdPartNo (word slice bsd) = bsd := by
  rw [bsdPartNo_eq, word_eq hb]
  omega

/-- The cursor holds a partition word. -/
def Cursor.Worded (c : Cursor) : Prop := ∃ slice bsd, slice < 0x100 ∧ bsd < 0x100 ∧ c.partition = word slice bsd

/-- The label of a slice, if it has one. -/
def Drive.label (d : Drive) (start len : Nat) : Option Buffer :=
  if len < bsdLabelSector + 1 then none
  else
    match d.rawread ((start + bsdLabelSector) % 2 ^ 32) with
    | .error _ => none
    | .ok label => if bsdLabelCheckMag label then some label else none

/-- The label that the next call looks at: that of the slice, or the one in the buffer. -/
def Cursor.label (c : Cursor) (d : Drive) : Option Buffer :=
  if bsdPartNo c.partition = 0xFF then d.label c.start c.len else some c.buf

/-- The BSD partition from which on the next call searches. -/
def Cursor.nextBsdNo (c : Cursor) : Nat := if bsdPartNo c.partition = 0xFF then 0 else bsdPartNo c.partition + 1

theorem nextBsdPartition_label {c : Cursor} {label : Buffer} (h : c.label d = some label) (beyond : Buffer) :
    nextBsdPartition d beyond c = searchBsd d beyond { c with buf := label } c.nextBsdNo := by
  unfold Cursor.label at h
  unfold nextBsdPartition Cursor.nextBsdNo
  split at h
  next hfirst =>
    rw [if_pos hfirst, if_pos hfirst]
    unfold Drive.label at h
    split at h
    next => cases h
    next hlen =>
      rw [if_neg hlen]
      generalize d.rawread ((c.start + bsdLabelSector) % 2 ^ 32) = r at h ⊢
      cases r with
      | error err => cases h
      | ok buf =>
        dsimp only at h ⊢
        by_cases hmagic : bsdLabelCheckMag buf = true
        · rw [if_pos hmagic] at h ⊢
          obtain rfl := Option.some.inj h
          rfl
        · rw [if_neg hmagic] at h
          cases h
  next hlater =>
    rw [if_neg hlater, if_neg hlater]
    obtain rfl := Option.some.inj h
    rfl

theorem nextBsdPartition_none {c : Cursor} (h : c.label d = none) (beyond : Buffer) :
    ∃ err, nextBsdPartition d beyond c = .error err := by
  unfold Cursor.label at h
  unfold nextBsdPartition
  split at h
  next hfirst =>
    rw [if_pos hfirst]
    unfold Drive.label at h
    split at h
    next hlen => exact ⟨_, if_pos hlen⟩
    next hlen =>
      rw [if_neg hlen]
      generalize d.rawread ((c.start + bsdLabelSector) % 2 ^ 32) = r at h ⊢
      cases r with
      | error err => exact ⟨err, rfl⟩
      | ok buf =>
        dsimp only at h ⊢
        by_cases hmagic : bsdLabelCheckMag buf = true
        · rw [if_pos hmagic] at h
          cases h
        · exact ⟨_, if_neg hmagic⟩
  next => cases h

theorem Cursor.typed_place (c : Cursor) : c.typed.place = c.place := by
  unfold Cursor.typed
  split <;> rfl

theorem Cursor.typed_label (c : Cursor) : c.typed.label d = c.label d := by
  unfold Cursor.typed
  split <;> rfl

theorem Cursor.typed_nextBsdNo (c : Cursor) : c.typed.nextBsdNo = c.nextBsdNo := by
  unfold Cursor.typed
  split <;> rfl

/-- The cursor at partition `i` of a label. -/
def Cursor.inLabel (c : Cursor) (d : Drive) (label beyond : Buffer) (i : Nat) : Cursor :=
  { c.typed with buf := label }.atBsd d (withBeyond label beyond) i

/-- **The step**: a call comes to another BSD partition of the same slice, or to the next
slice. -/
theorem call_cases {beyond : Buffer} {c c' : Cursor} (h : call d dest beyond c = some c') :
    (c.scans d ∧ ∃ label i, c.label d = some label ∧ c.nextBsdNo ≤ i ∧ i < bsdLabelNparts label ∧ c' = c.inLabel d label beyond i) ∨
      ∃ pl s, d.nextSlice c.place = some (pl, s) ∧ c'.AtSlice pl s := by
  have hslice (b : Cursor) (hplace : b.place = c.place) (hnext : (nextPcSlice d b).toOption = some c') :
      ∃ pl s, d.nextSlice c.place = some (pl, s) ∧ c'.AtSlice pl s := by
    cases hwalk : d.nextSlice c.place with
    | none =>
      rw [← hplace] at hwalk
      obtain ⟨err, herr⟩ := nextPcSlice_none hwalk
      rw [herr] at hnext
      cases hnext
    | some next =>
      rw [← hplace] at hwalk
      obtain ⟨b', hok, hat⟩ := nextPcSlice_some hwalk
      rw [hok] at hnext
      obtain rfl := Option.some.inj hnext
      exact ⟨next.1, next.2, rfl, hat⟩
  unfold call nextPartition at h
  split at h
  next => cases h
  next =>
    split at h
    next hscans =>
      cases hlabel : c.label d with
      | none =>
        right
        obtain ⟨err, herr⟩ := nextBsdPartition_none (c.typed_label.trans hlabel) beyond
        rw [herr] at h
        dsimp only at h
        split at h
        next => cases h
        next => exact hslice _ c.typed_place h
      | some label =>
        rw [nextBsdPartition_label (c.typed_label.trans hlabel), c.typed_nextBsdNo, searchBsd] at h
        cases hfirst : firstBsd (withBeyond label beyond) (bsdLabelNparts label) c.nextBsdNo with
        | none =>
          right
          dsimp only at h
          rw [hfirst] at h
          dsimp only at h
          split at h
          next => cases h
          next => exact hslice _ c.typed_place h
        | some i =>
          left
          dsimp only at h
          rw [hfirst] at h
          obtain ⟨hle, hlt, -⟩ := firstBsd_some hfirst
          exact ⟨hscans, label, i, rfl, hle, hlt, (Option.some.inj h).symm⟩
    next => exact .inr (hslice c rfl h)

/-! ## In a label -/

theorem Cursor.inLabel_buf (c : Cursor) (label beyond : Buffer) (i : Nat) : (c.inLabel d label beyond i).buf = label := rfl

theorem Cursor.typed_partition (c : Cursor) : c.typed.partition = c.partition := by
  unfold Cursor.typed
  split <;> rfl

theorem Cursor.Worded.inLabel_partition {c : Cursor} (h : c.Worded) (label beyond : Buffer) (i : Nat) :
    (c.inLabel d label beyond i).partition = word (sliceNo c.partition) i := by
  obtain ⟨slice, bsd, hs, hb, hword⟩ := h
  have hreplaced : (c.inLabel d label beyond i).partition = c.typed.partition &&& 0xFF00FF ||| i <<< 8 := rfl
  rw [hreplaced, c.typed_partition, hword, sliceNo_word hs hb, word_replace hs hb]

theorem sliceNo_lt (partition : Nat) : sliceNo partition < 0x100 := by
  rw [sliceNo_eq]
  omega

theorem Cursor.Worded.inLabel {c : Cursor} (h : c.Worded) (label beyond : Buffer) {i : Nat} (hi : i < 0x100) :
    (c.inLabel d label beyond i).Worded :=
  ⟨sliceNo c.partition, i, sliceNo_lt _, hi, h.inLabel_partition label beyond i⟩

/-- A BSD partition is one of the slice that the cursor is at. -/
theorem Cursor.Worded.inLabel_place {c : Cursor} (h : c.Worded) (label beyond : Buffer) {i : Nat} (hi : i < 0x100) :
    (c.inLabel d label beyond i).place = c.place := by
  have hslice : sliceNo (c.inLabel d label beyond i).partition = sliceNo c.partition := by
    rw [h.inLabel_partition label beyond i, sliceNo_word (sliceNo_lt _) hi]
  have hoffset : (c.inLabel d label beyond i).offset = c.offset ∧ (c.inLabel d label beyond i).extOffset = c.extOffset ∧
      (c.inLabel d label beyond i).entry = c.entry := by
    simp only [Cursor.inLabel, Cursor.atBsd, Cursor.typed]
    split <;> exact ⟨rfl, rfl, rfl⟩
  unfold Cursor.place
  rw [hslice, hoffset.1, hoffset.2.1, hoffset.2.2]

theorem Cursor.Worded.inLabel_bsd {c : Cursor} (h : c.Worded) (label beyond : Buffer) {i : Nat} (hi : i < 0x100) :
    bsdPartNo (c.inLabel d label beyond i).partition = i := by
  rw [h.inLabel_partition label beyond i, bsdPartNo_word hi]

theorem Cursor.AtSlice.worded {c : Cursor} {pl : Place} {s : Slice} (h : c.AtSlice pl s) : c.Worded :=
  ⟨s.no, 0xFF, h.no, by decide, h.partition⟩

/-! ## Labels that fit end -/

/-- The label that the next call looks at, if it looks at one, has no more partitions than
a byte can number. -/
def Cursor.LabelFits (c : Cursor) (d : Drive) : Prop :=
  c.scans d → ∀ label, c.label d = some label → bsdLabelNparts label ≤ 0xFF

/-- The BSD partitions of a slice are left behind. -/
theorem halts_in_label {pl : Place} (hnext : ∀ pl' s, d.nextSlice pl = some (pl', s) → ∀ c : Cursor, c.AtSlice pl' s →
    Halts (Step (call d dest)) c) (n : Nat) : ∀ c : Cursor, c.Worded → c.place = pl → bsdPartNo c.partition ≠ 0xFF →
      bsdLabelNparts c.buf ≤ 0xFF → bsdLabelNparts c.buf - bsdPartNo c.partition ≤ n → Halts (Step (call d dest)) c := by
  induction n with
  | zero =>
    intro c hword hplace hin hfits hleft
    refine Runs.halts_of_steps fun c' ⟨beyond, hcall⟩ => ?_
    rcases call_cases hcall with ⟨-, label, i, hlabel, hle, hlt, -⟩ | ⟨pl', s, hwalk, hat⟩
    · rw [Cursor.label, if_neg hin] at hlabel
      rw [Cursor.nextBsdNo, if_neg hin] at hle
      obtain rfl := Option.some.inj hlabel
      omega
    · rw [hplace] at hwalk
      exact hnext pl' s hwalk c' hat
  | succ n ih =>
    intro c hword hplace hin hfits hleft
    refine Runs.halts_of_steps fun c' ⟨beyond, hcall⟩ => ?_
    rcases call_cases hcall with ⟨-, label, i, hlabel, hle, hlt, rfl⟩ | ⟨pl', s, hwalk, hat⟩
    · rw [Cursor.label, if_neg hin] at hlabel
      rw [Cursor.nextBsdNo, if_neg hin] at hle
      obtain rfl := Option.some.inj hlabel
      have hi : i < 0x100 := by omega
      have hbsd := hword.inLabel_bsd (d := d) c.buf beyond hi
      refine ih _ (hword.inLabel _ _ hi) ((hword.inLabel_place _ _ hi).trans hplace) (by omega) hfits ?_
      rw [Cursor.inLabel_buf]
      omega
    · rw [hplace] at hwalk
      exact hnext pl' s hwalk c' hat

theorem halts_at_place {pl : Place} (hnext : ∀ pl' s, d.nextSlice pl = some (pl', s) → ∀ c : Cursor, c.AtSlice pl' s →
    Halts (Step (call d dest)) c) {c : Cursor} (hword : c.Worded) (hplace : c.place = pl) (hfits : c.LabelFits d) :
    Halts (Step (call d dest)) c := by
  refine Runs.halts_of_steps fun c' ⟨beyond, hcall⟩ => ?_
  rcases call_cases hcall with ⟨hscans, label, i, hlabel, hle, hlt, rfl⟩ | ⟨pl', s, hwalk, hat⟩
  · have hnparts := hfits hscans label hlabel
    have hi : i < 0x100 := by omega
    have hbsd := hword.inLabel_bsd (d := d) label beyond hi
    exact halts_in_label hnext _ _ (hword.inLabel _ _ hi) ((hword.inLabel_place _ _ hi).trans hplace) (by omega) hnparts le_rfl
  · rw [hplace] at hwalk
    exact hnext pl' s hwalk c' hat

/-- The label of a slice, if it is searched. -/
def Slice.LabelFits (s : Slice) (d : Drive) : Prop :=
  (d.hard = true → s.no ≠ 0xFF ∧ isPcSliceTypeBsd s.type = true) → ∀ label, d.label s.start s.len = some label → bsdLabelNparts label ≤ 0xFF

theorem Cursor.AtSlice.scans_iff {c : Cursor} {pl : Place} {s : Slice} (h : c.AtSlice pl s) (hs : s.Fits) :
    c.scans d ↔ (d.hard = true → s.no ≠ 0xFF ∧ isPcSliceTypeBsd s.type = true) := by
  have hnone : c.partition ≠ 0xFFFFFF ↔ s.no ≠ 0xFF := by
    rw [h.partition, word_eq (by decide)]
    omega
  have htype : c.type &&& 0xFF = s.type := by rw [h.type, byte_masked hs.type]
  unfold Cursor.scans
  rw [hnone, htype]
  cases d.hard <;> simp

theorem Cursor.AtSlice.labelFits_iff {c : Cursor} {pl : Place} {s : Slice} (h : c.AtSlice pl s) (hs : s.Fits) :
    c.LabelFits d ↔ s.LabelFits d := by
  have hlabel : c.label d = d.label s.start s.len := by
    rw [Cursor.label, h.partition, bsdPartNo_word (by decide), if_pos rfl, h.start, h.len]
  unfold Cursor.LabelFits Slice.LabelFits
  rw [hlabel, h.scans_iff hs]

/-- **The run**: where the walk ends and the labels on it fit, so do the enumerations. -/
theorem halts_of_slices {pl : Place} {l : List Slice} (h : Slices d pl l) (hcount : pl.count < 0x100)
    (hfits : ∀ s ∈ l, s.LabelFits d) : ∀ c : Cursor, c.Worded → c.place = pl → c.LabelFits d → Halts (Step (call d dest)) c := by
  induction h with
  | stop hstop =>
    intro c hword hplace hlabel
    refine halts_at_place (fun pl' s hnext => ?_) hword hplace hlabel
    rw [hstop] at hnext
    cases hnext
  | @next pl pl' s rest hnext later ih =>
    intro c hword hplace hlabel
    refine halts_at_place (fun pl'' s' hnext' c' hat => ?_) hword hplace hlabel
    rw [hnext] at hnext'
    obtain ⟨rfl, rfl⟩ := Prod.mk.inj (Option.some.inj hnext')
    have hcount' : pl'.count < 0x100 := hat.place ▸ c'.place_count_lt
    exact ih hcount' (fun t ht => hfits t (List.mem_cons_of_mem _ ht)) c' hat.worded hat.place
      ((hat.labelFits_iff (nextSlice_fits hnext hcount)).2 (hfits s List.mem_cons_self))

/-! ## Enumerations that end leave the slices behind -/

theorem Cursor.not_sought (c : Cursor) : ¬ c.sought 0xFFFFFF := by
  rintro ⟨h, -⟩
  exact h (by decide)

/-- Where the walk goes on, so does the enumeration, if it is not for a BSD partition. -/
theorem call_isSome (hnet : d.network = false) {c : Cursor} {next : Place × Slice} (h : d.nextSlice c.place = some next) (beyond : Buffer) :
    ∃ c', call d 0xFFFFFF beyond c = some c' := by
  have hslice (b : Cursor) (hplace : b.place = c.place) : ∃ c', (nextPcSlice d b).toOption = some c' := by
    rw [← hplace] at h
    obtain ⟨c', hok, -⟩ := nextPcSlice_some h
    exact ⟨c', by rw [hok]; rfl⟩
  unfold call nextPartition
  rw [if_neg (by rw [hnet]; decide)]
  split
  · split
    next c' _ => exact ⟨c', rfl⟩
    next err _ =>
      rw [if_neg c.typed.not_sought]
      exact hslice _ c.typed_place
  · exact hslice c rfl

theorem reaches_next (hnet : d.network = false) {pl : Place} {s : Slice} {c : Cursor} (h : Halts (Step (call d 0xFFFFFF)) c)
    (hword : c.Worded) (hfits : c.LabelFits d) (hnext : d.nextSlice c.place = some (pl, s)) :
    ∃ c', Relation.TransGen (Step (call d 0xFFFFFF)) c c' ∧ c'.AtSlice pl s := by
  revert hword hfits hnext
  refine h.induct (fun c => c.Worded → c.LabelFits d → d.nextSlice c.place = some (pl, s) →
    ∃ c', Relation.TransGen (Step (call d 0xFFFFFF)) c c' ∧ c'.AtSlice pl s) fun c _ ih hword hfits hnext => ?_
  obtain ⟨c', hcall⟩ := call_isSome hnet hnext fun _ => 0
  have hstep : Step (call d 0xFFFFFF) c c' := ⟨_, hcall⟩
  rcases call_cases hcall with ⟨hscans, label, i, hlabel, -, hlt, rfl⟩ | ⟨pl', s', hnext', hat⟩
  · have hnparts := hfits hscans label hlabel
    have hi : i < 0x100 := by omega
    have hbsd := hword.inLabel_bsd (d := d) label (fun _ => 0) hi
    have hfits' : (c.inLabel d label (fun _ => 0) i).LabelFits d := by
      intro _ label' hlabel'
      rw [Cursor.label, if_neg (by omega)] at hlabel'
      obtain rfl := Option.some.inj hlabel'
      exact hnparts
    obtain ⟨c'', hsteps, hat⟩ := ih _ (.single hstep) (hword.inLabel _ _ hi) hfits' (by rwa [hword.inLabel_place _ _ hi])
    exact ⟨c'', hsteps.head hstep, hat⟩
  · rw [hnext] at hnext'
    obtain ⟨rfl, rfl⟩ := Prod.mk.inj (Option.some.inj hnext')
    exact ⟨c', .single hstep, hat⟩

/-! ## Labels that do not fit -/

theorem Cursor.inLabel_low {c : Cursor} (h : d.hard = true → isPcSliceTypeBsd (c.type &&& 0xFF) = true) (label beyond : Buffer)
    (i : Nat) (hhard : d.hard = true) : (c.inLabel d label beyond i).type &&& 0xFF = c.type &&& 0xFF := by
  have hbsd := h hhard
  have htyped : c.typed = c := by
    refine if_neg fun hnone => ?_
    rw [hnone] at hbsd
    exact absurd hbsd (by decide)
  have htype : (c.inLabel d label beyond i).type = bsdPartType (withBeyond label beyond) i <<< 8 ||| c.typed.type &&& 0xFF := rfl
  rw [htype, htyped, Nat.and_or_distrib_right, shifted_masked _ (by decide), Nat.zero_or, Nat.and_assoc, Nat.and_self]

/-- The memory behind a label that has a partition 0xFF there, which is the slice itself. -/
def aimed (start len : Nat) : Buffer := fun i =>
  if i = 4240 then 1
  else if 4228 ≤ i ∧ i < 4232 then BitVec.ofNat 8 (len / 0x100 ^ (i - 4228))
  else if 4232 ≤ i ∧ i < 4236 then BitVec.ofNat 8 (start / 0x100 ^ (i - 4232))
  else 0

theorem aimed_type (label : Buffer) (start len : Nat) : bsdPartType (withBeyond label (aimed start len)) 0xFF ≠ 0 := by
  have hbyte : withBeyond label (aimed start len) (148 + 12 + 16 * 0xFF) = 1 := by
    simp [withBeyond, aimed, Disk.sectorSize]
  unfold bsdPartType
  rw [hbyte]
  decide

theorem aimed_start (label : Buffer) {start : Nat} (len : Nat) (h : start < 2 ^ 32) :
    bsdPartStart (withBeyond label (aimed start len)) 0xFF = start := by
  refine le32_bytes h fun i hi => ?_
  have hbehind : withBeyond label (aimed start len) (148 + 4 + 16 * 0xFF + i) = aimed start len (4232 + i) :=
    if_neg (by unfold Disk.sectorSize; omega)
  rw [hbehind, aimed, if_neg (by omega), if_neg (by omega), if_pos (by omega), Nat.add_sub_cancel_left]

theorem aimed_len (label : Buffer) (start : Nat) {len : Nat} (h : len < 2 ^ 32) :
    bsdPartLength (withBeyond label (aimed start len)) 0xFF = len := by
  refine le32_bytes h fun i hi => ?_
  have hbehind : withBeyond label (aimed start len) (148 + 16 * 0xFF + i) = aimed start len (4228 + i) :=
    if_neg (by unfold Disk.sectorSize; omega)
  rw [hbehind, aimed, if_neg (by omega), if_pos (by omega), Nat.add_sub_cancel_left]

/-- The search is in a label with more than 255 partitions. -/
structure Cursor.Overflows (c : Cursor) (d : Drive) (label : Buffer) : Prop where
  word : c.Worded
  bsd : d.hard = true → sliceNo c.partition ≠ 0xFF ∧ isPcSliceTypeBsd (c.type &&& 0xFF) = true
  found : c.label d = some label
  nparts : 0xFF < bsdLabelNparts label

theorem Cursor.Overflows.scans {c : Cursor} {label : Buffer} (h : c.Overflows d label) : c.scans d := by
  unfold Cursor.scans
  by_cases hhard : d.hard = true
  · obtain ⟨hno, hbsd⟩ := h.bsd hhard
    refine .inl ⟨fun hnone => hno ?_, hbsd⟩
    rw [hnone]
    rfl
  · exact .inr hhard

/-- A call finds another partition of the label, the one numbered 0xFF at the latest. -/
theorem Cursor.Overflows.call (dest : Nat) (hnet : d.network = false) {c : Cursor} {label : Buffer} (h : c.Overflows d label)
    (hle : c.nextBsdNo ≤ 0xFF) (start len : Nat) :
    ∃ i ≤ 0xFF, c.nextBsdNo ≤ i ∧ Partition.call d dest (aimed start len) c = some (c.inLabel d label (aimed start len) i) := by
  obtain ⟨i, hi, hfirst⟩ := firstBsd_le hle h.nparts (aimed_type label start len)
  refine ⟨i, hi, (firstBsd_some hfirst).1, ?_⟩
  unfold Partition.call nextPartition
  rw [if_neg (by rw [hnet]; decide), if_pos h.scans, nextBsdPartition_label (c.typed_label.trans h.found), c.typed_nextBsdNo, searchBsd]
  dsimp only
  rw [hfirst]
  rfl

theorem Cursor.Overflows.inLabel_bsd {c : Cursor} {label : Buffer} (h : c.Overflows d label) (beyond : Buffer) {i : Nat} (hi : i < 0x100)
    (hhard : d.hard = true) : sliceNo (c.inLabel d label beyond i).partition ≠ 0xFF ∧
      isPcSliceTypeBsd ((c.inLabel d label beyond i).type &&& 0xFF) = true := by
  obtain ⟨hno, hbsd⟩ := h.bsd hhard
  rw [h.word.inLabel_partition, sliceNo_word (sliceNo_lt _) hi, Cursor.inLabel_low (fun hh => (h.bsd hh).2) label beyond i hhard]
  exact ⟨hno, hbsd⟩

/-- The search comes to partition 0xFF, which is where it has started. -/
theorem Cursor.Overflows.recurs (hnet : d.network = false) {label : Buffer} {start len : Nat} (hlabel : d.label start len = some label)
    (hstart : start < 2 ^ 32) (hlen : len < 2 ^ 32) (n : Nat) : ∀ c : Cursor, c.Overflows d label → c.nextBsdNo ≤ 0xFF →
      0xFF - c.nextBsdNo ≤ n → ∃ c', Relation.TransGen (Step (Partition.call d dest)) c c' ∧ c'.Overflows d label ∧ c'.nextBsdNo = 0 := by
  have hlast (c : Cursor) (h : c.Overflows d label) :
      (c.inLabel d label (aimed start len) 0xFF).Overflows d label ∧ (c.inLabel d label (aimed start len) 0xFF).nextBsdNo = 0 := by
    have hbsd := h.word.inLabel_bsd (d := d) label (aimed start len) (show 0xFF < 0x100 by decide)
    refine ⟨⟨h.word.inLabel _ _ (by decide), h.inLabel_bsd _ (by decide), ?_, h.nparts⟩, ?_⟩
    · rw [Cursor.label, if_pos hbsd, ← hlabel]
      exact congrArg₂ d.label (aimed_start label len hstart) (aimed_len label start hlen)
    · rw [Cursor.nextBsdNo, if_pos hbsd]
  induction n with
  | zero =>
    intro c h hle hleft
    obtain ⟨i, hi, hge, hcall⟩ := h.call dest hnet hle start len
    obtain rfl : i = 0xFF := by omega
    exact ⟨_, .single ⟨_, hcall⟩, hlast c h⟩
  | succ n ih =>
    intro c h hle hleft
    obtain ⟨i, hi, hge, hcall⟩ := h.call dest hnet hle start len
    rcases Nat.eq_or_lt_of_le hi with rfl | hlt
    · exact ⟨_, .single ⟨_, hcall⟩, hlast c h⟩
    · have hbsd := h.word.inLabel_bsd (d := d) label (aimed start len) (show i < 0x100 by omega)
      have hnext : (c.inLabel d label (aimed start len) i).nextBsdNo = i + 1 := by
        rw [Cursor.nextBsdNo, if_neg (by omega), hbsd]
      have hover : (c.inLabel d label (aimed start len) i).Overflows d label := by
        refine ⟨h.word.inLabel _ _ (by omega), h.inLabel_bsd _ (by omega), ?_, h.nparts⟩
        rw [Cursor.label, if_neg (by omega)]
        rfl
      obtain ⟨c', hsteps, hover'⟩ := ih _ hover (by omega) (by omega)
      exact ⟨c', hsteps.head ⟨_, hcall⟩, hover'⟩

theorem Cursor.Overflows.endless (hnet : d.network = false) {label : Buffer} {c : Cursor} (h : c.Overflows d label)
    (hfirst : bsdPartNo c.partition = 0xFF) (hstart : c.start < 2 ^ 32) (hlen : c.len < 2 ^ 32) :
    ¬ Halts (Step (Partition.call d dest)) c := by
  have hlabel : d.label c.start c.len = some label := by
    have hlabel := h.found
    rwa [Cursor.label, if_pos hfirst] at hlabel
  have hstarts : c.Overflows d label ∧ c.nextBsdNo = 0 := ⟨h, by rw [Cursor.nextBsdNo, if_pos hfirst]⟩
  refine Runs.not_halts_of_recurs (P := fun c' => c'.Overflows d label ∧ c'.nextBsdNo = 0) (fun c' hc' => ?_) hstarts
  exact Cursor.Overflows.recurs hnet hlabel hstart hlen 0xFF c' hc'.1 (by omega) (by omega)

/-- A label that is searched in an enumeration that ends fits. -/
theorem labelFits_of_halts (hnet : d.network = false) {c : Cursor} (h : Halts (Step (call d dest)) c) (hword : c.Worded)
    (hfirst : bsdPartNo c.partition = 0xFF) (hstart : c.start < 2 ^ 32) (hlen : c.len < 2 ^ 32) : c.LabelFits d := by
  intro hscans label hlabel
  by_contra hlarge
  refine Cursor.Overflows.endless hnet ⟨hword, fun hhard => ?_, hlabel, Nat.lt_of_not_le hlarge⟩ hfirst hstart hlen h
  rcases hscans with ⟨hsome, hbsd⟩ | hfloppy
  · refine ⟨fun hno => hsome ?_, hbsd⟩
    obtain ⟨slice, bsd, hs, hb, hpartition⟩ := hword
    rw [hpartition] at hno hfirst ⊢
    rw [sliceNo_word hs hb] at hno
    rw [bsdPartNo_word hb] at hfirst
    rw [hno, hfirst]
    rfl
  · exact absurd hhard hfloppy

/-- An enumeration that ends comes to all slices. -/
theorem slices_of_halts (hnet : d.network = false) {c : Cursor} (h : Halts (Step (call d 0xFFFFFF)) c) (hword : c.Worded)
    (hfirst : bsdPartNo c.partition = 0xFF) (hstart : c.start < 2 ^ 32) (hlen : c.len < 2 ^ 32) :
    ∃ l, Slices d c.place l ∧ ∀ s ∈ l, s.LabelFits d := by
  revert hword hfirst hstart hlen
  refine h.induct (fun c => c.Worded → bsdPartNo c.partition = 0xFF → c.start < 2 ^ 32 → c.len < 2 ^ 32 →
    ∃ l, Slices d c.place l ∧ ∀ s ∈ l, s.LabelFits d) fun c hc ih hword hfirst hstart hlen => ?_
  cases hnext : d.nextSlice c.place with
  | none => exact ⟨[], .stop hnext, by simp⟩
  | some next =>
    obtain ⟨pl, s⟩ := next
    have hfits := labelFits_of_halts hnet hc hword hfirst hstart hlen
    obtain ⟨c', hsteps, hat⟩ := reaches_next hnet hc hword hfits hnext
    have hs := nextSlice_fits hnext c.place_count_lt
    have hfirst' : bsdPartNo c'.partition = 0xFF := by rw [hat.partition, bsdPartNo_word (by decide)]
    have hstart' : c'.start < 2 ^ 32 := hat.start ▸ hs.start
    have hlen' : c'.len < 2 ^ 32 := hat.len ▸ hs.len
    obtain ⟨l, hslices, hall⟩ := ih c' hsteps hat.worded hfirst' hstart' hlen'
    have hfits' := labelFits_of_halts hnet (hc.steps hsteps.to_reflTransGen) hat.worded hfirst' hstart' hlen'
    rw [hat.place] at hslices
    refine ⟨s :: l, .next hnext hslices, ?_⟩
    intro t ht
    rcases List.mem_cons.1 ht with rfl | ht
    · exact (hat.labelFits_iff hs).1 hfits'
    · exact hall t ht

/-- **Which enumerations end**, in terms of the walk. -/
theorem halts_iff_slices (hnet : d.network = false) {c : Cursor} (hpartition : c.partition = 0xFFFFFF) (hstart : c.start < 2 ^ 32)
    (hlen : c.len < 2 ^ 32) :
    (∀ dest, Halts (Step (call d dest)) c) ↔ c.LabelFits d ∧ ∃ l, Slices d .start l ∧ ∀ s ∈ l, s.LabelFits d := by
  have hword : c.Worded := ⟨0xFF, 0xFF, by decide, by decide, hpartition⟩
  have hfirst : bsdPartNo c.partition = 0xFF := by
    rw [hpartition]
    rfl
  have hplace : c.place = .start := by
    rw [Cursor.place, hpartition]
    rfl
  constructor
  · intro h
    rw [← hplace]
    exact ⟨labelFits_of_halts hnet (h 0) hword hfirst hstart hlen, slices_of_halts hnet (h 0xFFFFFF) hword hfirst hstart hlen⟩
  · rintro ⟨hfits, l, hslices, hall⟩ dest
    exact halts_of_slices hslices (by decide) hall c hword hplace hfits

end TrustedGrub.Partition
