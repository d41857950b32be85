import TrustedGrub.Partition.Chain

/-!
# The numbers of the partitions

Linux gives the entries of the MBR the numbers 1 to 4 and the logical partitions the
numbers from 5 on; GRUB's are one less. `next_partition` numbers a disk in this way exactly
when the first entry of the first extended boot record holds a partition, or none does.
-/

namespace TrustedGrub.Partition
open Runs (Halts Step Complete)

variable {d : Drive}

def Entry.numbered (e : Entry) (no : Nat) : Slice := ⟨no, e.type, e.start, e.len⟩

def Slice.isData (s : Slice) : Bool := ¬ isPcSliceTypeExtended s.type ∧ s.type ≠ pcSliceTypeNone

/-- The slice that a cursor has been put on. -/
def Cursor.slice (c : Cursor) : Slice := ⟨sliceNo c.partition, c.type, c.start, c.len⟩

/-- The slices among the partitions that an enumeration has come to. -/
def slicesOf (visited : List Cursor) : List Slice :=
  (visited.filter fun c => bsdPartNo c.partition = 0xFF).map Cursor.slice

theorem Cursor.AtSlice.slice {c : Cursor} {pl : Place} {s : Slice} (h : c.AtSlice pl s) : c.slice = s := by
  unfold Cursor.slice
  rw [h.partition, h.type, h.start, h.len, sliceNo_word h.no (by decide)]

/-- **The run**: an enumeration comes to the slices of the walk, in order. -/
theorem Complete.slices (hnet : d.network = false) {c : Cursor} {visited : List Cursor} (h : Complete (call d 0xFFFFFF) c visited) :
    ∀ {l : List Slice}, Slices d c.place l → (∀ s ∈ l, s.LabelFits d) → c.Worded → c.LabelFits d → slicesOf visited = l := by
  induction h with
  | @stop c beyond hcall =>
    intro l hslices _ _ _
    cases hslices with
    | stop _ => rfl
    | next hnext later =>
      obtain ⟨c', hsome⟩ := call_isSome hnet hnext beyond
      rw [hcall] at hsome
      cases hsome
  | @next c c' visited beyond hcall rest ih =>
    intro l hslices hall hword hfits
    rcases call_cases hcall with ⟨hscans, label, i, hlabel, -, hlt, rfl⟩ | ⟨pl, s, hnext, hat⟩
    · have hnparts := hfits hscans label hlabel
      have hi : i < 0x100 := by omega
      have hbsd := hword.inLabel_bsd (d := d) label beyond hi
      have hskip : slicesOf (c.inLabel d label beyond i :: visited) = slicesOf visited := by
        unfold slicesOf
        rw [List.filter_cons_of_neg (by rw [decide_eq_true_eq]; omega)]
      rw [hskip]
      refine ih ?_ hall (hword.inLabel _ _ hi) fun _ label' hlabel' => ?_
      · rwa [hword.inLabel_place _ _ hi]
      · rw [Cursor.label, if_neg (by omega)] at hlabel'
        obtain rfl := Option.some.inj hlabel'
        exact hnparts
    · cases hslices with
      | stop hstop =>
        rw [hstop] at hnext
        cases hnext
      | next hnext' later =>
        rw [hnext'] at hnext
        obtain ⟨rfl, rfl⟩ := Prod.mk.inj (Option.some.inj hnext)
        have hs := nextSlice_fits hnext' c.place_count_lt
        have hfirst : bsdPartNo c'.partition = 0xFF := by rw [hat.partition, bsdPartNo_word (by decide)]
        have hcons : slicesOf (c' :: visited) = c'.slice :: slicesOf visited := by
          unfold slicesOf
          rw [List.filter_cons_of_pos (by rw [decide_eq_true_eq]; exact hfirst), List.map_cons]
        rw [hcons, hat.slice]
        refine congrArg (_ :: ·) (ih ?_ (fun t ht => hall t (List.mem_cons_of_mem _ ht)) hat.worded ?_)
        · rwa [hat.place]
        · exact (hat.labelFits_iff hs).2 (hall _ List.mem_cons_self)

/-! ## Numbers -/

theorem numberFrom_cons (count : Nat) (e : Entry) (es : List Entry) :
    numberFrom count (e :: es) = e.numbered (counted count e.type - 1) :: numberFrom (counted count e.type) es := rfl

/-- The entries numbered one after the other. -/
def consecutive (no : Nat) (es : List Entry) : List Slice := es.mapIdx fun k e => e.numbered (no + k)

theorem consecutive_cons (no : Nat) (e : Entry) (es : List Entry) :
    consecutive no (e :: es) = e.numbered no :: consecutive (no + 1) es := by
  unfold consecutive
  rw [List.mapIdx_cons]
  congr 2
  funext k e
  rw [Nat.add_comm k 1, Nat.add_assoc]

theorem consecutive_numbers (no : Nat) (es : List Entry) : (consecutive no es).map Slice.no = List.range' no es.length := by
  induction es generalizing no with
  | nil => rfl
  | cons e es ih =>
    rw [consecutive_cons, List.map_cons, ih, List.length_cons, List.range'_succ]
    rfl

/-- Behind the first five entries, the data are numbered one after the other. -/
theorem numberFrom_data {count : Nat} (h : 5 ≤ count) (es : List Entry) :
    (numberFrom count es).filter Slice.isData = consecutive count (es.filter Entry.isData) := by
  induction es generalizing count with
  | nil => rfl
  | cons e es ih =>
    rw [numberFrom_cons]
    by_cases hdata : e.isData = true
    · have hcounted : counted count e.type = count + 1 := if_pos (.inr (of_decide_eq_true hdata))
      rw [List.filter_cons_of_pos hdata, List.filter_cons_of_pos (by exact hdata), ih (by omega), consecutive_cons, hcounted,
        Nat.add_sub_cancel]
    · have hcounted : counted count e.type = count := by
        refine if_neg (not_or.2 ⟨Nat.not_lt.2 h, fun hd => hdata ?_⟩)
        exact decide_eq_true hd
      rw [List.filter_cons_of_neg hdata, List.filter_cons_of_neg (by exact hdata), ih (by omega), hcounted]

/-- The first five entries are numbered one after the other. -/
theorem numberFrom_first {count : Nat} {es : List Entry} (h : count + es.length ≤ 5) : numberFrom count es = consecutive count es := by
  induction es generalizing count with
  | nil => rfl
  | cons e es ih =>
    rw [List.length_cons] at h
    have hcounted : counted count e.type = count + 1 := if_pos (.inl (by omega))
    rw [numberFrom_cons, consecutive_cons, hcounted, ih (by omega), Nat.add_sub_cancel]

/-- The partitions of a disk, as the tables `entries` have them, in the numbering of
Linux less one. -/
structure Numbering (entries : List Entry) (slices : List Slice) : Prop where
  /-- Entry `i` of the MBR has the number `i`. -/
  primary : slices.take 4 = consecutive 0 (entries.take 4)
  /-- The logical partitions have the numbers from 4 on. -/
  logical : (slices.drop 4).filter Slice.isData = consecutive 4 ((entries.drop 4).filter Entry.isData)
  /-- No two partitions share a number. -/
  distinct : ((slices.filter Slice.isData).map Slice.no).Nodup

theorem numbering_distinct {entries : List Entry} {slices : List Slice} (hprimary : slices.take 4 = consecutive 0 (entries.take 4))
    (hlogical : (slices.drop 4).filter Slice.isData = consecutive 4 ((entries.drop 4).filter Entry.isData)) :
    ((slices.filter Slice.isData).map Slice.no).Nodup := by
  have hsub : ((slices.take 4).filter Slice.isData).map Slice.no |>.Sublist (List.range' 0 (entries.take 4).length) := by
    rw [hprimary, ← consecutive_numbers]
    exact List.filter_sublist.map _
  have hnumbers : ((slices.drop 4).filter Slice.isData).map Slice.no =
      List.range' 4 ((entries.drop 4).filter Entry.isData).length := by
    rw [hlogical, consecutive_numbers]
  rw [← List.take_append_drop 4 slices, List.filter_append, List.map_append, hnumbers]
  refine List.nodup_append.2 ⟨hsub.nodup List.nodup_range', List.nodup_range', fun no hfirst no' hsecond => ?_⟩
  have hlow := List.mem_range'_1.1 (hsub.subset hfirst)
  have hhigh := List.mem_range'_1.1 hsecond
  have hfour : (entries.take 4).length ≤ 4 := List.length_take_le 4 entries
  omega

/-- The walk numbers a disk well exactly when the fifth entry, the first one of the first
extended boot record, holds data, or no later one does. -/
theorem numbering_iff {entries : List Entry} (hlen : 4 ≤ entries.length) :
    Numbering entries (numberFrom 0 entries) ↔
      (entries.drop 4).filter Entry.isData = [] ∨ ∃ e, entries[4]? = some e ∧ e.isData = true := by
  have hfirst : (entries.take 4).length = 4 := by
    rw [List.length_take, Nat.min_eq_left hlen]
  have hsplit : numberFrom 0 entries = consecutive 0 (entries.take 4) ++ numberFrom 4 (entries.drop 4) := by
    have hcount : countFrom 0 (entries.take 4) = 4 := by rw [countFrom_first (by omega), hfirst]
    have hnumbered : numberFrom 0 (entries.take 4) = consecutive 0 (entries.take 4) := numberFrom_first (by omega)
    have happend := numberFrom_append 0 (entries.take 4) (entries.drop 4)
    rwa [List.take_append_drop, hcount, hnumbered] at happend
  have hlength : (consecutive 0 (entries.take 4)).length = 4 := by
    rw [consecutive, List.length_mapIdx, hfirst]
  have htake : (numberFrom 0 entries).take 4 = consecutive 0 (entries.take 4) := by
    rw [hsplit, List.take_left' hlength]
  have hdrop : (numberFrom 0 entries).drop 4 = numberFrom 4 (entries.drop 4) := by
    rw [hsplit, List.drop_left' hlength]
  have hall : Numbering entries (numberFrom 0 entries) ↔
      (numberFrom 4 (entries.drop 4)).filter Slice.isData = consecutive 4 ((entries.drop 4).filter Entry.isData) := by
    rw [← hdrop]
    exact ⟨fun h => h.logical, fun h => ⟨htake, h, numbering_distinct htake h⟩⟩
  have hfifth : entries[4]? = (entries.drop 4)[0]? := by rw [List.getElem?_drop]
  rw [hall, hfifth]
  cases hrest : entries.drop 4 with
  | nil => exact iff_of_true rfl (.inl rfl)
  | cons e rest =>
    have hcounted : counted 4 e.type = 5 := rfl
    rw [numberFrom_cons, hcounted]
    by_cases hdata : e.isData = true
    · refine iff_of_true ?_ (.inr ⟨e, rfl, hdata⟩)
      rw [List.filter_cons_of_pos hdata, List.filter_cons_of_pos (by exact hdata), numberFrom_data le_rfl, consecutive_cons]
    · rw [List.filter_cons_of_neg hdata, List.filter_cons_of_neg (by exact hdata), numberFrom_data le_rfl]
      have hnone : ¬ ∃ e', (e :: rest)[0]? = some e' ∧ e'.isData = true := by
        rintro ⟨e', he, hd⟩
        obtain rfl := Option.some.inj he
        exact hdata hd
      rw [or_iff_left hnone]
      constructor
      · intro heq
        have hnumbers := congrArg (List.map Slice.no) heq
        rw [consecutive_numbers, consecutive_numbers] at hnumbers
        by_contra hsome
        obtain ⟨n, hn⟩ := Nat.exists_eq_succ_of_ne_zero fun hzero => hsome (List.length_eq_zero_iff.1 hzero)
        rw [hn, List.range'_succ, List.range'_succ] at hnumbers
        exact absurd (List.cons.inj hnumbers).1 (by decide)
      · intro hempty
        rw [hempty]
        rfl

theorem tableEntries_length (offset : Nat) (mbr : Buffer) : (tableEntries offset mbr).length = 4 := rfl

/-- A chain from a valid MBR has its entries. -/
theorem Chain.four_le {offset extOffset : Nat} {tables : List (Nat × Buffer)} {mbr : Buffer} (h : Chain d offset extOffset tables)
    (hmbr : d.table offset = some mbr) : 4 ≤ (chainEntries tables).length := by
  have hcons (t : Nat × Buffer) (ts : List (Nat × Buffer)) : 4 ≤ (chainEntries (t :: ts)).length := by
    rw [chainEntries_cons, List.length_append, tableEntries_length]
    exact Nat.le_add_right 4 _
  cases h with
  | broken h =>
    rw [hmbr] at h
    cases h
  | last h hlast => exact hcons _ _
  | link h hlink later => exact hcons _ _

/-- A listing that ends is that of the chain. -/
theorem enumeration_listed (hnet : d.network = false) {tables : List (Nat × Buffer)} {c : Cursor} (hchain : Chain d 0 0 tables)
    (hpartition : c.partition = 0xFFFFFF) (hcount : ((chainEntries tables).drop 5).countP Entry.isData ≤ 250)
    (hfits : c.LabelFits d) (hlabels : ∀ e ∈ chainEntries tables, e.LabelFits d) :
    Halts (Step (call d 0xFFFFFF)) c ∧
      ∀ visited, Complete (call d 0xFFFFFF) c visited → slicesOf visited = numberFrom 0 (chainEntries tables) := by
  have hword : c.Worded := ⟨0xFF, 0xFF, by decide, by decide, hpartition⟩
  have hplace : c.place = .start := by
    rw [Cursor.place, hpartition]
    rfl
  have hslices : Slices d .start (numberFrom 0 (chainEntries tables)) := slices_iff_chain.2 ⟨tables, hchain, hcount, rfl⟩
  have hall := (numberFrom_labels hslices.no_wrap).2 hlabels
  exact ⟨halts_of_slices hslices (by decide) hall c hword hplace hfits,
    fun visited hvisited => Complete.slices hnet hvisited (hplace ▸ hslices) hall hword hfits⟩

/-- **The numbers.** A disk with a valid MBR and a chain of tables that ends is listed to
its end, and its partitions get the numbers that Linux gives them, less one, exactly when
the first entry of the first extended boot record holds a partition or no logical one
exists, no more than 250 others follow, and no label that is searched has more than 255
partitions. -/
theorem enumeration_numbers_iff (hnet : d.network = false) {mbr : Buffer} {tables : List (Nat × Buffer)} {c : Cursor}
    (hmbr : d.table 0 = some mbr) (hchain : Chain d 0 0 tables) (hpartition : c.partition = 0xFFFFFF) (hstart : c.start < 2 ^ 32)
    (hlen : c.len < 2 ^ 32) :
    (Halts (Step (call d 0xFFFFFF)) c ∧ ∀ visited, Complete (call d 0xFFFFFF) c visited →
      Numbering (chainEntries tables) (slicesOf visited)) ↔
      (((chainEntries tables).drop 4).filter Entry.isData = [] ∨ ∃ e, (chainEntries tables)[4]? = some e ∧ e.isData = true) ∧
        ((chainEntries tables).drop 5).countP Entry.isData ≤ 250 ∧ c.LabelFits d ∧ ∀ e ∈ chainEntries tables, e.LabelFits d := by
  have hnumbering := numbering_iff (hchain.four_le hmbr)
  constructor
  · rintro ⟨hhalts, hall⟩
    have hword : c.Worded := ⟨0xFF, 0xFF, by decide, by decide, hpartition⟩
    have hfirst : bsdPartNo c.partition = 0xFF := by
      rw [hpartition]
      rfl
    have hplace : c.place = .start := by
      rw [Cursor.place, hpartition]
      rfl
    have hfits := labelFits_of_halts hnet hhalts hword hfirst hstart hlen
    obtain ⟨l, hslices, hlabels⟩ := slices_of_halts hnet hhalts hword hfirst hstart hlen
    rw [hplace] at hslices
    have hno := hslices.no_wrap
    obtain ⟨tables', hchain', hcount, rfl⟩ := slices_iff_chain.1 hslices
    obtain rfl := hchain.unique hchain'
    have hentries := (numberFrom_labels hno).1 hlabels
    obtain ⟨visited, hvisited⟩ := Runs.Halts.complete hhalts
    have hgood := hall visited hvisited
    rw [(enumeration_listed hnet hchain hpartition hcount hfits hentries).2 visited hvisited] at hgood
    exact ⟨hnumbering.1 hgood, hcount, hfits, hentries⟩
  · rintro ⟨hdata, hcount, hfits, hlabels⟩
    obtain ⟨hhalts, hlisted⟩ := enumeration_listed hnet hchain hpartition hcount hfits hlabels
    refine ⟨hhalts, fun visited hvisited => ?_⟩
    rw [hlisted visited hvisited]
    exact hnumbering.2 hdata

theorem enumeration_numbers_oneSlice :
    (Halts (Step (call oneSlice 0xFFFFFF)) (firstCursor 1000) ∧ ∀ visited, Complete (call oneSlice 0xFFFFFF) (firstCursor 1000) visited →
      Numbering (chainEntries [(0, oneTable)]) (slicesOf visited)) ↔
      (((chainEntries [(0, oneTable)]).drop 4).filter Entry.isData = [] ∨
          ∃ e, (chainEntries [(0, oneTable)])[4]? = some e ∧ e.isData = true) ∧
        ((chainEntries [(0, oneTable)]).drop 5).countP Entry.isData ≤ 250 ∧ (firstCursor 1000).LabelFits oneSlice ∧
          ∀ e ∈ chainEntries [(0, oneTable)], e.LabelFits oneSlice := by
  have hmbr : oneSlice.table 0 = some oneTable := rfl
  exact enumeration_numbers_iff rfl hmbr (.last hmbr (by decide +kernel)) rfl (by decide) (by decide)

/-- The tables of a disk whose first logical partition has been deleted: the first
extended boot record, in sector 63, has no data, and the one in sector 163 has. -/
def deletedTables : List (Nat × Buffer) :=
  [(0, sectorWith [(450, 5), (454, 63), (458, 200), (510, 0x55), (511, 0xAA)]),
    (63, sectorWith [(466, 5), (470, 100), (474, 50), (510, 0x55), (511, 0xAA)]),
    (163, sectorWith [(450, 0x83), (454, 1), (458, 49), (510, 0x55), (511, 0xAA)])]

def firstDeleted : Drive where
  drive := 0x80
  network := false
  rawread n := .ok ((deletedTables.lookup n).getD (sectorWith []))

theorem firstDeleted_chain : Chain firstDeleted 0 0 deletedTables := by
  have hsecond : Chain firstDeleted 163 63 [(163, sectorWith [(450, 0x83), (454, 1), (458, 49), (510, 0x55), (511, 0xAA)])] :=
    .last rfl (by decide +kernel)
  have hfirst : Chain firstDeleted 63 63 (deletedTables.drop 1) := .link rfl (show extendedEntry _ = some 1 by decide +kernel) hsecond
  exact .link rfl (show extendedEntry _ = some 0 by decide +kernel) hfirst

/-- The first logical partition of that disk, and the only one, gets the number 5. -/
theorem firstDeleted_number : ∃ visited, Complete (call firstDeleted 0xFFFFFF) (firstCursor 1000) visited ∧
    ((slicesOf visited).filter Slice.isData).map (fun s => (s.no, s.start, s.len)) = [(5, 164, 49)] ∧
      ((chainEntries deletedTables).filter Entry.isData).map (fun e => (e.start, e.len)) = [(164, 49)] := by
  have hlabels : ∀ e ∈ chainEntries deletedTables, e.LabelFits firstDeleted := by
    have hnone : (chainEntries deletedTables).all (fun e => ¬ isPcSliceTypeBsd e.type) = true := by decide +kernel
    intro e he hsearched
    exact absurd (hsearched (by decide)) (of_decide_eq_true (List.all_eq_true.1 hnone e he))
  have hfits : (firstCursor 1000).LabelFits firstDeleted := by
    intro hscans
    exact absurd hscans (by decide)
  obtain ⟨hhalts, hlisted⟩ := enumeration_listed rfl firstDeleted_chain rfl (by decide +kernel) hfits hlabels
  obtain ⟨visited, hvisited⟩ := Runs.Halts.complete hhalts
  refine ⟨visited, hvisited, ?_, by decide +kernel⟩
  rw [hlisted visited hvisited]
  decide +kernel

end TrustedGrub.Partition
