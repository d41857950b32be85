import TrustedGrub.Partition.Enumeration

/-!
# The chain of extended boot records

The tables of a disk: the MBR, and from each table the one that its first extended entry
refers to. The walk over the slices ends exactly when the chain does and the numbers of
the slices do not come to 0xFF.
-/

namespace TrustedGrub.Partition
open Fips180 (Byte)
open Runs (Halts Step)

variable {d : Drive}

/-- An entry of a table. -/
structure Entry where
  type : Nat
  start : Nat
  len : Nat

/-- Entry `i` of the table in sector `offset`. -/
def tableEntry (offset : Nat) (mbr : Buffer) (i : Nat) : Entry :=
  ⟨pcSliceType mbr i, (offset + pcSliceStart mbr i) % 2 ^ 32, pcSliceLength mbr i⟩

def tableEntries (offset : Nat) (mbr : Buffer) : List Entry := (List.range pcSliceMax).map (tableEntry offset mbr)

/-- The tables from `offset` on. Entries are relative to the first extended partition, or
else to the disk. -/
inductive Chain (d : Drive) : Nat → Nat → List (Nat × Buffer) → Prop where
  | broken {offset extOffset : Nat} (h : d.table offset = none) : Chain d offset extOffset []
  | last {offset extOffset : Nat} {mbr : Buffer} (h : d.table offset = some mbr) (hlast : extendedEntry mbr = none) :
      Chain d offset extOffset [(offset, mbr)]
  | link {offset extOffset i : Nat} {mbr : Buffer} {tables : List (Nat × Buffer)} (h : d.table offset = some mbr)
      (hlink : extendedEntry mbr = some i)
      (later : Chain d ((extOffset + pcSliceStart mbr i) % 2 ^ 32)
        (if extOffset = 0 then (extOffset + pcSliceStart mbr i) % 2 ^ 32 else extOffset) tables) :
      Chain d offset extOffset ((offset, mbr) :: tables)

theorem Chain.unique {offset extOffset : Nat} {tables tables' : List (Nat × Buffer)} (h : Chain d offset extOffset tables)
    (h' : Chain d offset extOffset tables') : tables = tables' := by
  induction h generalizing tables' with
  | broken h =>
    cases h' with
    | broken _ => rfl
    | last h' _ | link h' _ _ =>
      rw [h] at h'
      cases h'
  | last h hlast =>
    cases h' with
    | broken h' =>
      rw [h] at h'
      cases h'
    | last h' _ =>
      obtain rfl := Option.some.inj (h.symm.trans h')
      rfl
    | link h' hlink _ =>
      obtain rfl := Option.some.inj (h.symm.trans h')
      rw [hlast] at hlink
      cases hlink
  | link h hlink later ih =>
    cases h' with
    | broken h' =>
      rw [h] at h'
      cases h'
    | last h' hlast =>
      obtain rfl := Option.some.inj (h.symm.trans h')
      rw [hlink] at hlast
      cases hlast
    | link h' hlink' later' =>
      obtain rfl := Option.some.inj (h.symm.trans h')
      obtain rfl := Option.some.inj (hlink.symm.trans hlink')
      rw [ih later']

/-- All entries, in the order of the chain. -/
def chainEntries (tables : List (Nat × Buffer)) : List Entry := tables.flatMap fun t => tableEntries t.1 t.2

/-- The slices, numbered as the walk does. -/
def numberFrom (count : Nat) : List Entry → List Slice
  | [] => []
  | e :: es => ⟨counted count e.type - 1, e.type, e.start, e.len⟩ :: numberFrom (counted count e.type) es

/-- How many numbers have been given in the end. -/
def countFrom (count : Nat) (es : List Entry) : Nat := es.foldl (fun n e => counted n e.type) count

theorem numberFrom_append (count : Nat) (es es' : List Entry) :
    numberFrom count (es ++ es') = numberFrom count es ++ numberFrom (countFrom count es) es' := by
  induction es generalizing count with
  | nil => rfl
  | cons e es ih => simp only [List.cons_append, numberFrom, ih, countFrom, List.foldl_cons]

theorem countFrom_append (count : Nat) (es es' : List Entry) : countFrom count (es ++ es') = countFrom (countFrom count es) es' :=
  List.foldl_append

theorem counted_ge (count type : Nat) : count ≤ counted count type := by
  unfold counted
  split <;> omega

theorem countFrom_ge (count : Nat) (es : List Entry) : count ≤ countFrom count es := by
  induction es generalizing count with
  | nil => exact le_rfl
  | cons e es ih => exact (counted_ge count e.type).trans (ih _)

/-- The numbers stay below 0xFF as long as not too many are given. -/
theorem numberFrom_below {count : Nat} {es : List Entry} (hcount : count ≤ 0xFF) :
    (∀ s ∈ numberFrom count es, s.no ≠ 0xFF) ↔ countFrom count es ≤ 0xFF := by
  induction es generalizing count with
  | nil => exact iff_of_true (by simp [numberFrom]) hcount
  | cons e es ih =>
    have hle := counted_le count e.type
    have hpos := counted_pos count e.type
    unfold numberFrom
    rw [List.forall_mem_cons, countFrom, List.foldl_cons, ← countFrom]
    by_cases hnext : counted count e.type ≤ 0xFF
    · rw [ih hnext]
      exact and_iff_right (by dsimp only; omega)
    · have hfinal := countFrom_ge (counted count e.type) es
      refine iff_of_false (fun h => h.1 ?_) (by omega)
      dsimp only
      omega

/-! ## Walks along the chain -/

/-- Two places before the same slice. -/
theorem Slices.of_nextSlice {pl pl' : Place} {l : List Slice} (h : Slices d pl l) (heq : d.nextSlice pl' = d.nextSlice pl) :
    Slices d pl' l := by
  cases h with
  | stop h => exact .stop (heq.trans h)
  | next h later => exact .next (heq.trans h) later

theorem nextSlice_entry {offset i : Nat} (extOffset count : Nat) {mbr : Buffer} (h : d.table offset = some mbr) (hi : i < pcSliceMax) :
    d.nextSlice ⟨offset, extOffset, i - 1, count⟩ =
      some (if counted count (pcSliceType mbr i) = 0x100 then .start else ⟨offset, extOffset, i, counted count (pcSliceType mbr i)⟩,
        ⟨counted count (pcSliceType mbr i) - 1, pcSliceType mbr i, (offset + pcSliceStart mbr i) % 2 ^ 32, pcSliceLength mbr i⟩) := by
  have hentry : ((i : Int) - 1 + 1) = i := by omega
  unfold Drive.nextSlice
  rw [h, Option.bind_some, if_neg (by dsimp only; omega)]
  simp only [Place.entered, Place.slice, hentry, Int.toNat_natCast]

theorem nextSlice_link {offset extOffset count i : Nat} {mbr : Buffer} (h : d.table offset = some mbr)
    (hlink : extendedEntry mbr = some i) :
    d.nextSlice ⟨offset, extOffset, 3, count⟩ = d.nextSlice (Place.link ⟨offset, extOffset, 3, count⟩ mbr i) := by
  have hstart : (Place.link ⟨offset, extOffset, 3, count⟩ mbr i).entry + 1 ≠ pcSliceMax := by
    simp [Place.link, pcSliceMax]
  unfold Drive.nextSlice
  rw [h, Option.bind_some, if_pos (by rfl), hlink, Option.bind_some]
  simp only [if_neg hstart]
  cases d.table (Place.link ⟨offset, extOffset, 3, count⟩ mbr i).offset <;> rfl

theorem nextSlice_last {offset extOffset count : Nat} {mbr : Buffer} (h : d.table offset = some mbr) (hlast : extendedEntry mbr = none) :
    d.nextSlice ⟨offset, extOffset, 3, count⟩ = none := by
  unfold Drive.nextSlice
  rw [h, Option.bind_some, if_pos (by rfl), hlast]
  rfl

theorem nextSlice_broken {pl : Place} (h : d.table pl.offset = none) : d.nextSlice pl = none := by
  unfold Drive.nextSlice
  rw [h]
  rfl

/-- The last `k` entries of a table. -/
theorem Slices.leave_table {offset extOffset : Nat} {mbr : Buffer} (h : d.table offset = some mbr) (k : Nat) :
    ∀ {i count : Nat} {l : List Slice}, i + k = pcSliceMax → Slices d ⟨offset, extOffset, i - 1, count⟩ l → (∀ s ∈ l, s.no ≠ 0xFF) →
      ∃ rest, l = numberFrom count ((List.range' i k).map (tableEntry offset mbr)) ++ rest ∧
        Slices d ⟨offset, extOffset, 3, countFrom count ((List.range' i k).map (tableEntry offset mbr))⟩ rest := by
  induction k with
  | zero =>
    intro i count l hi hslices _
    obtain rfl : i = 4 := hi
    exact ⟨l, rfl, hslices⟩
  | succ k ih =>
    intro i count l hi hslices hno
    have hnext := nextSlice_entry extOffset count h (show i < pcSliceMax by omega)
    cases hslices with
    | stop hstop =>
      rw [hnext] at hstop
      cases hstop
    | @next _ pl s rest hfirst later =>
      rw [hnext] at hfirst
      obtain ⟨hpl, hs⟩ := Prod.mk.inj (Option.some.inj hfirst)
      have hbelow := hno s List.mem_cons_self
      rw [← hs] at hbelow
      dsimp only at hbelow
      rw [if_neg (by omega)] at hpl
      have hplace : (⟨offset, extOffset, i, counted count (pcSliceType mbr i)⟩ : Place) =
          ⟨offset, extOffset, (i + 1 : Nat) - 1, counted count (pcSliceType mbr i)⟩ := by
        congr 1
        omega
      rw [← hpl, hplace] at later
      obtain ⟨rest', hrest, hlater⟩ := ih (by omega) later fun t ht => hno t (List.mem_cons_of_mem _ ht)
      refine ⟨rest', ?_, hlater⟩
      rw [hrest, ← hs]
      rfl

theorem Slices.enter_table {offset extOffset : Nat} {mbr : Buffer} {rest : List Slice} (h : d.table offset = some mbr) (k : Nat) :
    ∀ {i count : Nat}, i + k = pcSliceMax → countFrom count ((List.range' i k).map (tableEntry offset mbr)) ≤ 0xFF →
      Slices d ⟨offset, extOffset, 3, countFrom count ((List.range' i k).map (tableEntry offset mbr))⟩ rest →
        Slices d ⟨offset, extOffset, i - 1, count⟩ (numberFrom count ((List.range' i k).map (tableEntry offset mbr)) ++ rest) := by
  induction k with
  | zero =>
    intro i count hi _ hslices
    obtain rfl : i = 4 := hi
    exact hslices
  | succ k ih =>
    intro i count hi hcount hslices
    have hnext := nextSlice_entry extOffset count h (show i < pcSliceMax by omega)
    have hle : counted count (pcSliceType mbr i) ≤ 0xFF := (countFrom_ge _ _).trans hcount
    rw [if_neg (by omega)] at hnext
    refine .next hnext ?_
    have hplace : (⟨offset, extOffset, i, counted count (pcSliceType mbr i)⟩ : Place) =
        ⟨offset, extOffset, (i + 1 : Nat) - 1, counted count (pcSliceType mbr i)⟩ := by
      congr 1
      omega
    rw [hplace]
    exact ih (by omega) hcount hslices

theorem tableEntries_range (offset : Nat) (mbr : Buffer) :
    tableEntries offset mbr = (List.range' 0 pcSliceMax).map (tableEntry offset mbr) := by
  rw [tableEntries, List.range_eq_range']

theorem chainEntries_cons (t : Nat × Buffer) (tables : List (Nat × Buffer)) :
    chainEntries (t :: tables) = tableEntries t.1 t.2 ++ chainEntries tables := List.flatMap_cons

/-- A walk that ends without coming to the number 0xFF has followed a chain to its end. -/
theorem Slices.chain (n : Nat) : ∀ {offset extOffset count : Nat} {l : List Slice}, l.length = n →
    Slices d ⟨offset, extOffset, -1, count⟩ l → (∀ s ∈ l, s.no ≠ 0xFF) →
      ∃ tables, Chain d offset extOffset tables ∧ l = numberFrom count (chainEntries tables) := by
  induction n using Nat.strong_induction_on with
  | _ n ih =>
    intro offset extOffset count l hn hslices hno
    cases htable : d.table offset with
    | none =>
      have hstop : d.nextSlice ⟨offset, extOffset, -1, count⟩ = none := nextSlice_broken htable
      exact ⟨[], .broken htable, hslices.unique (.stop hstop)⟩
    | some mbr =>
      have hslices' : Slices d ⟨offset, extOffset, (0 : Nat) - 1, count⟩ l := hslices
      obtain ⟨rest, hl, hrest⟩ := hslices'.leave_table htable pcSliceMax rfl hno
      rw [← tableEntries_range] at hl hrest
      cases hext : extendedEntry mbr with
      | none =>
        obtain rfl := hrest.unique (.stop (nextSlice_last htable hext))
        refine ⟨[(offset, mbr)], .last htable hext, ?_⟩
        rw [hl, chainEntries_cons, List.append_nil]
        exact congrArg (numberFrom count) (List.append_nil _).symm
      | some i =>
        have hlink := hrest.of_nextSlice (nextSlice_link htable hext).symm
        have hshorter : rest.length < n := by
          rw [← hn, hl, List.length_append]
          exact Nat.lt_add_of_pos_left (Nat.succ_pos _)
        have hno' : ∀ s ∈ rest, s.no ≠ 0xFF := fun s hs => hno s (hl ▸ List.mem_append_right _ hs)
        obtain ⟨tables, hchain, hnumbered⟩ := ih rest.length hshorter rfl hlink hno'
        refine ⟨(offset, mbr) :: tables, .link htable hext hchain, ?_⟩
        rw [hl, hnumbered, chainEntries_cons, numberFrom_append]

/-- A chain that ends is walked to its end, if the numbers fit. -/
theorem Chain.slices {offset extOffset : Nat} {tables : List (Nat × Buffer)} (h : Chain d offset extOffset tables) :
    ∀ {count : Nat}, countFrom count (chainEntries tables) ≤ 0xFF →
      Slices d ⟨offset, extOffset, -1, count⟩ (numberFrom count (chainEntries tables)) := by
  induction h with
  | broken h => intro count _; exact .stop (nextSlice_broken h)
  | @last offset extOffset mbr h hlast =>
    intro count hcount
    rw [chainEntries_cons, tableEntries_range, numberFrom_append]
    rw [chainEntries_cons, tableEntries_range, countFrom_append] at hcount
    exact Slices.enter_table h pcSliceMax rfl ((countFrom_ge _ _).trans hcount) (.stop (nextSlice_last h hlast))
  | @link offset extOffset i mbr tables h hlink later ih =>
    intro count hcount
    rw [chainEntries_cons, tableEntries_range, numberFrom_append]
    rw [chainEntries_cons, tableEntries_range, countFrom_append] at hcount
    refine Slices.enter_table h pcSliceMax rfl ((countFrom_ge _ _).trans hcount) ?_
    exact (ih hcount).of_nextSlice (nextSlice_link h hlink)

theorem Slices.later {pl : Place} {s : Slice} {l l' : List Slice} (h : Slices d pl (l ++ s :: l')) :
    ∃ pl₀ pl', d.nextSlice pl₀ = some (pl', s) ∧ Slices d pl' l' := by
  induction l generalizing pl with
  | nil =>
    cases h with
    | next h later => exact ⟨_, _, h, later⟩
  | cons t l ih =>
    cases h with
    | next h later => exact ih later

/-- The number 0xFF starts the walk again. -/
theorem nextSlice_wraps {pl pl' : Place} {s : Slice} (h : d.nextSlice pl = some (pl', s)) (hno : s.no = 0xFF) : pl' = .start := by
  have hentered (pl : Place) (mbr : Buffer) (hno : (pl.slice mbr).no = 0xFF) : pl.entered mbr = .start := by
    simp only [Place.slice] at hno
    exact if_pos (by omega)
  unfold Drive.nextSlice at h
  obtain ⟨mbr, -, h⟩ := Option.bind_eq_some_iff.1 h
  split at h
  · obtain ⟨i, -, h⟩ := Option.bind_eq_some_iff.1 h
    obtain ⟨mbr', -, h⟩ := Option.map_eq_some_iff.1 h
    obtain ⟨rfl, rfl⟩ := Prod.mk.inj h
    exact hentered _ _ hno
  · obtain ⟨rfl, rfl⟩ := Prod.mk.inj (Option.some.inj h)
    exact hentered _ _ hno

/-- A walk that ends has not started again. -/
theorem Slices.no_wrap {l : List Slice} (h : Slices d .start l) : ∀ s ∈ l, s.no ≠ 0xFF := by
  intro s hs hno
  obtain ⟨before, after, rfl⟩ := List.append_of_mem hs
  obtain ⟨pl₀, pl', hnext, hlater⟩ := h.later
  rw [nextSlice_wraps hnext hno] at hlater
  have hlength := congrArg List.length (h.unique hlater)
  rw [List.length_append, List.length_cons] at hlength
  omega

/-- An entry that is numbered after the fifth. -/
def Entry.isData (e : Entry) : Bool := ¬ isPcSliceTypeExtended e.type ∧ e.type ≠ pcSliceTypeNone

theorem countFrom_data {count : Nat} (h : 5 ≤ count) (es : List Entry) : countFrom count es = count + es.countP Entry.isData := by
  induction es generalizing count with
  | nil => rfl
  | cons e es ih =>
    have hge := counted_ge count e.type
    rw [countFrom, List.foldl_cons, ← countFrom, ih (by omega), List.countP_cons]
    have hcounted : counted count e.type = count + if e.isData then 1 else 0 := by
      unfold counted Entry.isData
      simp only [Nat.not_lt.2 h, false_or, decide_eq_true_eq]
      split <;> rfl
    omega

theorem countFrom_first {count : Nat} {es : List Entry} (h : count + es.length ≤ 5) : countFrom count es = count + es.length := by
  induction es generalizing count with
  | nil => rfl
  | cons e es ih =>
    rw [List.length_cons] at h ⊢
    have hcounted : counted count e.type = count + 1 := if_pos (.inl (by omega))
    rw [countFrom, List.foldl_cons, ← countFrom, hcounted, ih (by omega)]
    omega

/-- The numbers fit if there are at most 250 data entries behind the first five. -/
theorem countFrom_fits (es : List Entry) : countFrom 0 es ≤ 0xFF ↔ (es.drop 5).countP Entry.isData ≤ 250 := by
  have hsplit : countFrom 0 es = countFrom (countFrom 0 (es.take 5)) (es.drop 5) := by
    rw [← countFrom_append, List.take_append_drop]
  have hfirst : countFrom 0 (es.take 5) = 0 + (es.take 5).length := countFrom_first (by simp)
  rw [hsplit, hfirst, List.length_take, Nat.zero_add]
  rcases Nat.lt_or_ge es.length 5 with hshort | hlong
  · rw [List.drop_of_length_le hshort.le]
    simp [countFrom]
  · rw [Nat.min_eq_left hlong, countFrom_data le_rfl]
    omega

/-- **Which walks end**: those whose chain does, and whose numbers fit. -/
theorem slices_iff_chain {l : List Slice} :
    Slices d .start l ↔
      ∃ tables, Chain d 0 0 tables ∧ ((chainEntries tables).drop 5).countP Entry.isData ≤ 250 ∧ l = numberFrom 0 (chainEntries tables) := by
  constructor
  · intro h
    obtain ⟨tables, hchain, rfl⟩ := Slices.chain _ rfl h h.no_wrap
    exact ⟨tables, hchain, (countFrom_fits _).1 ((numberFrom_below (by decide)).1 h.no_wrap), rfl⟩
  · rintro ⟨tables, hchain, hfits, rfl⟩
    exact hchain.slices ((countFrom_fits _).2 hfits)

/-- The label in a slice, if it is searched: it has no more partitions than a byte can
number. -/
def Entry.LabelFits (e : Entry) (d : Drive) : Prop :=
  (d.hard = true → isPcSliceTypeBsd e.type = true) → ∀ label, d.label e.start e.len = some label → bsdLabelNparts label ≤ 0xFF

theorem numberFrom_labels {count : Nat} {es : List Entry} (hno : ∀ s ∈ numberFrom count es, s.no ≠ 0xFF) :
    (∀ s ∈ numberFrom count es, s.LabelFits d) ↔ ∀ e ∈ es, e.LabelFits d := by
  induction es generalizing count with
  | nil => simp [numberFrom]
  | cons e es ih =>
    unfold numberFrom at hno ⊢
    rw [List.forall_mem_cons] at hno
    rw [List.forall_mem_cons, List.forall_mem_cons, ih hno.2]
    have hsome := hno.1
    have hfits : Slice.LabelFits ⟨counted count e.type - 1, e.type, e.start, e.len⟩ d ↔ e.LabelFits d := by
      unfold Slice.LabelFits Entry.LabelFits
      simp only [hsome, ne_eq, not_false_eq_true, true_and]
    rw [hfits]

/-- **Which enumerations end.** From the first call on, for every destination and whatever
lies behind the buffer, the enumeration of a drive's partitions ends exactly when the chain
of its tables does, no more than 250 of the entries behind the first five hold data, and no
label that is searched has more than 255 partitions. -/
theorem enumeration_halts_iff {c : Cursor} (hpartition : c.partition = 0xFFFFFF) (hstart : c.start < 2 ^ 32) (hlen : c.len < 2 ^ 32) :
    (∀ dest, Halts (Step (call d dest)) c) ↔
      d.network = true ∨ c.LabelFits d ∧ ∃ tables, Chain d 0 0 tables ∧
        ((chainEntries tables).drop 5).countP Entry.isData ≤ 250 ∧ ∀ e ∈ chainEntries tables, e.LabelFits d := by
  by_cases hnet : d.network = true
  · refine iff_of_true (fun dest => Runs.halts_of_steps fun c' ⟨beyond, hcall⟩ => ?_) (.inl hnet)
    unfold call nextPartition at hcall
    rw [if_pos hnet] at hcall
    cases hcall
  · rw [halts_iff_slices (Bool.eq_false_iff.2 hnet) hpartition hstart hlen, or_iff_right hnet]
    refine and_congr_right fun _ => ?_
    constructor
    · rintro ⟨l, hslices, hall⟩
      have hno := hslices.no_wrap
      obtain ⟨tables, hchain, hfits, rfl⟩ := slices_iff_chain.1 hslices
      exact ⟨tables, hchain, hfits, (numberFrom_labels hno).1 hall⟩
    · rintro ⟨tables, hchain, hfits, hall⟩
      have hslices : Slices d .start (numberFrom 0 (chainEntries tables)) := slices_iff_chain.2 ⟨tables, hchain, hfits, rfl⟩
      exact ⟨_, hslices, (numberFrom_labels hslices.no_wrap).2 hall⟩

/-- A sector that is zero but for some bytes. -/
def sectorWith (bytes : List (Nat × Byte)) : Buffer := fun i => (bytes.lookup i).getD 0

/-- The variables as `real_open_partition` hands them to the first call. -/
def firstCursor (len : Nat) : Cursor := ⟨0xFFFFFF, 0, 0, len, 0, 0, 0, fun _ => 0, 0⟩

/-- The only entry of the MBR is a Linux partition. -/
def oneTable : Buffer := sectorWith [(450, 0x83), (454, 63), (458, 100), (510, 0x55), (511, 0xAA)]

def oneSlice : Drive where
  drive := 0x80
  network := false
  rawread n := .ok (if n = 0 then oneTable else sectorWith [])

theorem enumeration_halts_oneSlice : (∀ dest, Halts (Step (call oneSlice dest)) (firstCursor 1000)) ↔
    oneSlice.network = true ∨ (firstCursor 1000).LabelFits oneSlice ∧ ∃ tables, Chain oneSlice 0 0 tables ∧
      ((chainEntries tables).drop 5).countP Entry.isData ≤ 250 ∧ ∀ e ∈ chainEntries tables, e.LabelFits oneSlice :=
  enumeration_halts_iff rfl (by decide) (by decide)

/-- The table in sector 63 refers to itself. -/
def selfLinked : Drive where
  drive := 0x80
  network := false
  rawread n := .ok (sectorWith (
    if n = 0 then [(450, 5), (454, 63), (458, 100), (510, 0x55), (511, 0xAA)]
    else if n = 63 then [(450, 0x83), (454, 1), (458, 99), (466, 5), (510, 0x55), (511, 0xAA)]
    else []))

/-- The table in sector 63, as it is read. -/
def linkedTable : Buffer := sectorWith [(450, 0x83), (454, 1), (458, 99), (466, 5), (510, 0x55), (511, 0xAA)]

theorem selfLinked_chain (tables : List (Nat × Buffer)) : ¬ Chain selfLinked 63 63 tables := by
  have htable : selfLinked.table 63 = some linkedTable := rfl
  have hextended : extendedEntry linkedTable = some 1 := by decide +kernel
  induction tables with
  | nil =>
    intro hchain
    cases hchain with
    | broken h =>
      rw [htable] at h
      cases h
  | cons t tables ih =>
    intro hchain
    cases hchain with
    | last h hlast =>
      obtain rfl := Option.some.inj (htable.symm.trans h)
      rw [hextended] at hlast
      cases hlast
    | link h hlink later =>
      obtain rfl := Option.some.inj (htable.symm.trans h)
      obtain rfl := Option.some.inj (hextended.symm.trans hlink)
      have hagain : (63 + pcSliceStart linkedTable 1) % 2 ^ 32 = 63 := by decide +kernel
      rw [hagain] at later
      exact ih later

/-- The enumeration of that disk's partitions goes round for ever. -/
theorem selfLinked_endless : ¬ Halts (Step (call selfLinked 0xFFFFFF)) (firstCursor 1000) := by
  intro h
  obtain ⟨l, hslices, -⟩ := slices_of_halts rfl h ⟨0xFF, 0xFF, by decide, by decide, rfl⟩ rfl (by decide) (by decide)
  obtain ⟨tables, hchain, -⟩ := slices_iff_chain.1 hslices
  have hfirst : ∃ mbr, selfLinked.table 0 = some mbr ∧ extendedEntry mbr = some 0 ∧ pcSliceStart mbr 0 = 63 :=
    ⟨_, rfl, by decide +kernel, by decide +kernel⟩
  obtain ⟨mbr, htable, hextended, hstart⟩ := hfirst
  cases hchain with
  | broken h =>
    rw [htable] at h
    cases h
  | last h hlast =>
    obtain rfl := Option.some.inj (htable.symm.trans h)
    rw [hextended] at hlast
    cases hlast
  | link h hlink later =>
    obtain rfl := Option.some.inj (htable.symm.trans h)
    obtain rfl := Option.some.inj (hextended.symm.trans hlink)
    rw [hstart] at later
    exact selfLinked_chain _ later

end TrustedGrub.Partition
