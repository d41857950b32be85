import TrustedGrub.Partition.Tables
import TrustedGrub.Lib.RunLength

/-!
# `start.S`

The first sector of Stage 2 loads the others. It takes them from a list at its end, which it goes
through from the top down. An entry tells the first sector, how many there are, and the segment
that they are loaded to. The segments are 16 bits wide, and an address lies in the first megabyte.
-/

namespace TrustedGrub.Boot
open TrustedGrub.Partition (Buffer le16 le32)
open RunLength (Run Tiles)

/-- A sector that is loaded: its number, and the address of its first byte. -/
structure Loaded where
  sector : Nat
  segment : Nat
  offset : Nat

/-- Where a byte of the sector lies, in real mode. -/
def Loaded.address (l : Loaded) (byte : Nat) : Nat := (16 * l.segment + l.offset + byte) % 2 ^ 20

/-- `how many do we really want to read?` The numbers are compared with their signs. -/
def share (most count : Nat) : Nat := if (most : Int) < Int.bmod count (2 ^ 16) then most else count

/-- In LBA mode no more than 0x7f sectors are read at once. -/
def lbaMost (_ : Nat) : Nat := 0x7F

/-- In CHS mode it is the rest of the track. -/
def chsMost (sectors start : Nat) : Nat := sectors - start % sectors

/-- At least one sector is read, and no more than an address packet takes. -/
def ReadLimit (most : Nat → Nat) : Prop := ∀ start, 0 < most start ∧ most start ≤ 0x7F

theorem lbaMost_reads : ReadLimit lbaMost := fun _ => ⟨Nat.succ_pos _, Nat.le_refl _⟩

theorem chsMost_reads {sectors : Nat} (hpos : 0 < sectors) (hsmall : sectors < 0x40) : ReadLimit (chsMost sectors) := by
  intro start
  have h := Nat.mod_lt start hpos
  unfold chsMost
  omega

variable (most : Nat → Nat)

/-- `setup_sectors` and `copy_buffer`, until an entry is done with. The length of a copy is
16 bits wide. -/
def setupSectors : Nat → Nat → Nat → Nat → List Loaded
  | 0, _, _, _ => []
  | fuel + 1, start, count, segment =>
    let ax := share (most start) count
    (List.range (512 * ax % 2 ^ 16 / 512)).map (fun k => ⟨(start + k) % 2 ^ 32, segment, 512 * k⟩) ++
      if count - ax = 0 then [] else setupSectors fuel ((start + ax) % 2 ^ 32) (count - ax) ((segment + 32 * ax) % 2 ^ 16)

/-- `bootloop`, over the entries below `8 * n`. -/
def bootloop (sect : Buffer) : Nat → List Loaded
  | 0 => []
  | n + 1 =>
    let di := 8 * n
    if le16 sect (di + 4) = 0 then []
    else setupSectors most (le16 sect (di + 4)) (le32 sect di) (le16 sect (di + 4)) (le16 sect (di + 6)) ++ bootloop sect n

/-- The sectors that are loaded. The first entry ends the sector. -/
def load (sect : Buffer) : List Loaded := bootloop most sect 64

/-! ## One entry -/

/-- The sector lies in memory from `a` on. -/
structure Loaded.At (l : Loaded) (sector a : Nat) : Prop where
  sector : l.sector = sector
  address : 16 * l.segment + l.offset = a
  inside : a + 512 ≤ 2 ^ 20

/-- The sectors of the list lie one behind the other. -/
def Laid (ls : List Loaded) (sectors : List Nat) (a : Nat) : Prop :=
  ls.length = sectors.length ∧ ∀ (k : Nat) (l : Loaded) (x : Nat), ls[k]? = some l → sectors[k]? = some x → l.At x (a + 512 * k)

variable {most}

theorem Laid.append {ls ls' : List Loaded} {sectors sectors' : List Nat} {a b : Nat} (h : Laid ls sectors a) (h' : Laid ls' sectors' b)
    (hb : b = a + 512 * sectors.length) : Laid (ls ++ ls') (sectors ++ sectors') a := by
  obtain ⟨hlength, hat⟩ := h
  obtain ⟨hlength', hat'⟩ := h'
  refine ⟨by rw [List.length_append, List.length_append, hlength, hlength'], fun k l x hl hx => ?_⟩
  rcases Nat.lt_or_ge k sectors.length with hk | hk
  · rw [List.getElem?_append_left (by omega)] at hl
    rw [List.getElem?_append_left hk] at hx
    exact hat k l x hl hx
  · rw [List.getElem?_append_right (by omega), hlength] at hl
    rw [List.getElem?_append_right hk] at hx
    have h := hat' _ l x hl hx
    rw [hb, Nat.add_assoc, ← Nat.mul_add, Nat.add_sub_cancel' hk] at h
    exact h

theorem Laid.sectors {ls : List Loaded} {sectors : List Nat} {a : Nat} (h : Laid ls sectors a) : ls.map Loaded.sector = sectors := by
  obtain ⟨hlength, hat⟩ := h
  apply List.ext_getElem
  · rw [List.length_map, hlength]
  · intro k hl hx
    rw [List.length_map] at hl
    rw [List.getElem_map]
    exact (hat k _ _ (List.getElem?_eq_getElem hl) (List.getElem?_eq_getElem hx)).sector

/-- Every byte has its place. -/
theorem Laid.address {ls : List Loaded} {sectors : List Nat} {a k byte : Nat} {l : Loaded} (h : Laid ls sectors a) (hl : ls[k]? = some l)
    (hbyte : byte < 512) : l.address byte = a + 512 * k + byte := by
  obtain ⟨hlength, hat⟩ := h
  obtain ⟨hk, -⟩ := List.getElem?_eq_some_iff.1 hl
  have h := hat k l _ hl (List.getElem?_eq_getElem (hlength ▸ hk))
  have hinside := h.inside
  unfold Loaded.address
  rw [h.address]
  omega

theorem share_le {m count : Nat} (hcount : count < 2 ^ 15) : share m count = min m count := by
  unfold share
  have hsigned : Int.bmod count (2 ^ 16) = count := by
    rw [Int.bmod_def]
    omega
  rw [hsigned]
  split <;> omega

/-- **An entry is loaded from its segment on**, if that fits below 1 MB. -/
theorem setupSectors_laid (hmost : ReadLimit most) (fuel : Nat) : ∀ {start count segment : Nat}, count ≤ fuel →
    0 < count → 16 * segment + 512 * count ≤ 2 ^ 20 →
    Laid (setupSectors most fuel start count segment) ((List.range count).map fun k => (start + k) % 2 ^ 32) (16 * segment) := by
  induction fuel with
  | zero =>
    intro start count segment hfuel hpos
    omega
  | succ fuel ih =>
    intro start count segment hfuel hpos hfits
    obtain ⟨hmostPos, hmostLe⟩ := hmost start
    rw [setupSectors, share_le (by omega)]
    generalize hax : min (most start) count = ax
    have haxPos : 0 < ax := by omega
    have haxLe : ax ≤ count := by omega
    have hcopied : 512 * ax % 2 ^ 16 / 512 = ax := by omega
    rw [hcopied]
    have hfirst : Laid ((List.range ax).map fun k => (⟨(start + k) % 2 ^ 32, segment, 512 * k⟩ : Loaded))
        ((List.range ax).map fun k => (start + k) % 2 ^ 32) (16 * segment) := by
      refine ⟨by rw [List.length_map, List.length_map], fun k l x hl hx => ?_⟩
      rw [List.getElem?_map] at hl hx
      obtain ⟨i, hi, rfl⟩ := Option.map_eq_some_iff.1 hl
      rw [hi] at hx
      cases hx
      obtain ⟨hlt, rfl⟩ := List.getElem?_eq_some_iff.1 hi
      rw [List.length_range] at hlt
      rw [List.getElem_range]
      exact ⟨rfl, rfl, by omega⟩
    by_cases hdone : count - ax = 0
    · obtain rfl : ax = count := by omega
      rw [if_pos hdone, List.append_nil]
      exact hfirst
    · rw [if_neg hdone]
      have hsegment : (segment + 32 * ax) % 2 ^ 16 = segment + 32 * ax := by
        apply Nat.mod_eq_of_lt
        omega
      have hrest : Laid (setupSectors most fuel ((start + ax) % 2 ^ 32) (count - ax) (segment + 32 * ax)) _ (16 * (segment + 32 * ax)) :=
        ih (by omega) (by omega) (by omega)
      rw [hsegment]
      have hsplit : (List.range count).map (fun k => (start + k) % 2 ^ 32) =
          (List.range ax).map (fun k => (start + k) % 2 ^ 32) ++
            (List.range (count - ax)).map fun k => ((start + ax) % 2 ^ 32 + k) % 2 ^ 32 := by
        conv_lhs => rw [← Nat.add_sub_cancel' haxLe, List.range_add, List.map_append, List.map_map]
        congr 1
        refine List.map_congr_left fun k _ => ?_
        show (start + (ax + k)) % 2 ^ 32 = ((start + ax) % 2 ^ 32 + k) % 2 ^ 32
        rw [Nat.mod_add_mod, Nat.add_assoc]
      rw [hsplit]
      apply hfirst.append hrest
      rw [List.length_map, List.length_range]
      omega

/-! ## The list -/

/-- The entry at `di` is the run `r`, loaded to a segment. -/
structure EntryIs (sect : Buffer) (di : Nat) (r : Run) (segment : Nat) : Prop where
  start : le32 sect di = r.start
  count : le16 sect (di + 4) = r.count
  segment : le16 sect (di + 6) = segment

/-- The entries from the top down are some runs, and go to the paragraphs from `p` on. The last
run comes first. -/
def Listed (sect : Buffer) (p : Nat) : List Run → Prop
  | [] => True
  | r :: rs => EntryIs sect (504 - 8 * rs.length) r ((p + 32 * r.first) % 2 ^ 16) ∧ Listed sect p rs

theorem EntryIs.congr {sect sect' : Buffer} {di segment : Nat} {r : Run} (h : EntryIs sect di r segment)
    (heq : ∀ x, di ≤ x → x < di + 8 → sect' x = sect x) : EntryIs sect' di r segment where
  start := by
    rw [← h.start]
    exact Partition.le32_congr fun x hlo hhi => heq x hlo (by omega)
  count := by
    rw [← h.count]
    exact Partition.le16_congr fun x hlo hhi => heq x (by omega) (by omega)
  segment := by
    rw [← h.segment]
    exact Partition.le16_congr fun x hlo hhi => heq x (by omega) (by omega)

/-- A list only depends on its own bytes. -/
theorem Listed.congr {sect sect' : Buffer} {p : Nat} {rs : List Run} (h : Listed sect p rs) (hroom : rs.length ≤ 63)
    (heq : ∀ x, 512 - 8 * rs.length ≤ x → x < 512 → sect' x = sect x) : Listed sect' p rs := by
  induction rs with
  | nil => exact h
  | cons r rs ih =>
    rw [List.length_cons] at hroom heq
    exact ⟨h.1.congr fun x hlo hhi => heq x (by omega) (by omega), ih h.2 (by omega) fun x hlo hhi => heq x (by omega) hhi⟩

/-- The entries are gone through, one by one. -/
theorem load_listed (hmost : ReadLimit most) {sect : Buffer} {p : Nat} (rs : List Run) :
    ∀ {n : Nat}, Listed sect p rs → Tiles rs n → rs.length ≤ 64 → 16 * (p % 2 ^ 16) + 512 * n ≤ 2 ^ 20 →
      ∃ ls, load most sect = ls ++ bootloop most sect (64 - rs.length) ∧ Laid ls (RunLength.items (2 ^ 32) rs) (16 * (p % 2 ^ 16)) := by
  induction rs with
  | nil =>
    intro n _ _ _ _
    refine ⟨[], rfl, rfl, fun k l x hl => ?_⟩
    cases hl
  | cons r rs ih =>
    intro n hlisted htiles hroom hfits
    obtain ⟨hentry, hlisted⟩ := hlisted
    obtain ⟨hpos, hsum, htiles⟩ := htiles
    rw [List.length_cons] at hroom
    obtain ⟨ls, hload, hlaid⟩ := ih hlisted htiles (by omega) (by omega)
    obtain ⟨k, hk⟩ : ∃ k, 64 - rs.length = k + 1 := ⟨63 - rs.length, by omega⟩
    have hdi : 504 - 8 * rs.length = 8 * k := by omega
    rw [hdi] at hentry
    have hstep : bootloop most sect (k + 1) =
        setupSectors most r.count r.start r.count ((p + 32 * r.first) % 2 ^ 16) ++ bootloop most sect k := by
      rw [bootloop]
      rw [hentry.count, hentry.start, hentry.segment, if_neg (by omega)]
    have hsegment : 16 * ((p + 32 * r.first) % 2 ^ 16) = 16 * (p % 2 ^ 16) + 512 * r.first := by omega
    have hrun : Laid (setupSectors most r.count r.start r.count ((p + 32 * r.first) % 2 ^ 16)) (r.items (2 ^ 32))
        (16 * ((p + 32 * r.first) % 2 ^ 16)) := setupSectors_laid hmost r.count (Nat.le_refl _) hpos (by omega)
    refine ⟨ls ++ setupSectors most r.count r.start r.count ((p + 32 * r.first) % 2 ^ 16), ?_, ?_⟩
    · rw [hload, hk, hstep, List.append_assoc, List.length_cons]
      congr 3
      omega
    · rw [RunLength.items_cons]
      exact hlaid.append hrun (by rw [hsegment, htiles.items_length])

/-- The entries of a list are in use. -/
theorem Listed.used {sect : Buffer} {p : Nat} {rs : List Run} {n : Nat} (h : Listed sect p rs) (htiles : Tiles rs n)
    (hroom : rs.length ≤ 63) : ∀ j < rs.length, le16 sect (508 - 8 * j) ≠ 0 := by
  induction rs generalizing n with
  | nil =>
    intro j hj
    exact absurd hj (Nat.not_lt_zero j)
  | cons r rs ih =>
    obtain ⟨hentry, hlisted⟩ := h
    obtain ⟨hpos, -, htiles⟩ := htiles
    rw [List.length_cons] at hroom
    intro j hj
    rcases Nat.eq_or_lt_of_le (Nat.le_of_lt_succ hj) with rfl | hlt
    · have hcount := hentry.count
      rw [show 504 - 8 * rs.length + 4 = 508 - 8 * rs.length by omega] at hcount
      omega
    · exact ih hlisted htiles (by omega) j hlt

/-- The first entry is the one at the end of the sector. -/
theorem Listed.top {sect : Buffer} {p : Nat} {rs : List Run} {n : Nat} (h : Listed sect p rs) (htiles : Tiles rs n) (hn : 0 < n) :
    ∃ r : Run, EntryIs sect 504 r (p % 2 ^ 16) ∧ 0 < r.count ∧ r.count ≤ n := by
  induction rs generalizing n with
  | nil =>
    cases htiles
    exact absurd hn (Nat.lt_irrefl 0)
  | cons r rs ih =>
    obtain ⟨hentry, hlisted⟩ := h
    obtain ⟨hpos, hsum, htiles⟩ := htiles
    rcases Nat.eq_zero_or_pos r.first with hfirst | hfirst
    · cases rs with
      | nil =>
        rw [hfirst] at hentry
        exact ⟨r, hentry, hpos, by omega⟩
      | cons r' rs =>
        have hpos' := htiles.1
        have hsum' := htiles.2.1
        omega
    · obtain ⟨r', hentry', hpos', hle⟩ := ih hlisted htiles hfirst
      exact ⟨r', hentry', hpos', by omega⟩

/-- The first sector is loaded to the segment of the first entry. -/
theorem load_first (hmost : ReadLimit most) {sect : Buffer} {p : Nat} {rs : List Run} {n : Nat} (h : Listed sect p rs) (htiles : Tiles rs n)
    (hn : 0 < n) (hsmall : n < 2 ^ 15) : ∃ l ls, load most sect = l :: ls ∧ l.segment = p % 2 ^ 16 ∧ l.offset = 0 := by
  obtain ⟨r, hentry, hpos, hle⟩ := h.top htiles hn
  obtain ⟨hmostPos, hmostLe⟩ := hmost r.start
  have hcount : le16 sect (8 * 63 + 4) = r.count := hentry.count
  have hstart : le32 sect (8 * 63) = r.start := hentry.start
  have hsegment : le16 sect (8 * 63 + 6) = p % 2 ^ 16 := hentry.segment
  obtain ⟨fuel, hfuel⟩ : ∃ fuel, r.count = fuel + 1 := ⟨r.count - 1, by omega⟩
  obtain ⟨k, hk⟩ : ∃ k, 512 * share (most r.start) r.count % 2 ^ 16 / 512 = k + 1 := by
    rw [share_le (by omega)]
    exact ⟨min (most r.start) r.count - 1, by omega⟩
  unfold load
  rw [bootloop, hcount, hstart, hsegment, if_neg (by omega), hfuel, setupSectors, ← hfuel, hk, List.range_succ_eq_map, List.map_cons]
  exact ⟨_, _, rfl, rfl, rfl⟩

end TrustedGrub.Boot
