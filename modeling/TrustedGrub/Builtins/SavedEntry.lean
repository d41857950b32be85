import TrustedGrub.Builtins.SaveDefault

/-!
# The saved entry

When the number that `savedefault` has written is the number that the next boot reads, for any place of
the ten bytes on the disk.
-/

namespace TrustedGrub.Builtins
open Fips180 (Byte)
open Disk (GrubError sectorSize safeParseMaxint)
open Drive (unsigned)
open Memory (slice)
open TrustedGrub.Partition (convertToAscii digitsRev)

/-! ## Places of the record -/

/-- The byte of the disk belongs to the piece. -/
def Piece.Holds (p : Piece) (sector : Int) (i : Nat) : Prop := p.sector = sector ∧ p.offset ≤ i ∧ i < p.offset + p.length

/-- Where the first ten bytes of the default file lie, or all of a shorter one. The hook is told of no sector
when a driver has the bytes of a resident file already. -/
structure Placement where
  pieces : List Piece
  resident : Bool
  fits : ∀ p ∈ pieces, 0 ≤ p.offset ∧ 0 < p.length ∧ p.offset + p.length ≤ sectorSize
  apart : pieces.Pairwise fun p q => p.sector = q.sector → p.offset + p.length ≤ q.offset ∨ q.offset + q.length ≤ p.offset
  short : (pieces.map Piece.length).sum ≤ recordLen

def Placement.length (place : Placement) : Int := (place.pieces.map Piece.length).sum

/-- What the hook is told. -/
def Placement.reported (place : Placement) : List Piece := if place.resident then [] else place.pieces

/-- The bytes of a file, on a disk. -/
def content (pieces : List Piece) (disk : Int → Nat → Byte) : List Byte :=
  pieces.flatMap fun p => slice (disk p.sector) p.offset.toNat p.length.toNat

/-- What the functions that reach the file do, as far as they succeed. A sector that a write has failed on
may hold anything. -/
structure Sound {σ : Type} (m : Machine σ) (place : Placement) (disk : σ → Int → Nat → Byte) (Ready : σ → Prop) : Prop where
  opened : ∀ st, Ready st → Ready (m.grubOpen st).2 ∧ disk (m.grubOpen st).2 = disk st
  read : ∀ st, Ready st → Ready (m.grubRead st).2.2 ∧ disk (m.grubRead st).2.2 = disk st
  delivered : ∀ st, Ready st → (m.grubRead st).1.length = recordLen →
    place.length = recordLen ∧ (m.grubRead st).1 = content place.pieces (disk st) ∧ (m.grubRead st).2.1 = place.reported
  rawread : ∀ sector st, Ready st → Ready (m.rawread sector st).2 ∧ disk (m.rawread sector st).2 = disk st
  contents : ∀ sector sect st, Ready st → (m.rawread sector st).1 = .ok sect → sect = disk st sector
  rawwrite : ∀ sector sect st, Ready st →
    Ready (m.rawwrite sector sect st).2 ∧ ∀ other, other ≠ sector → disk (m.rawwrite sector sect st).2 other = disk st other
  stored : ∀ sector sect st, Ready st → (m.rawwrite sector sect st).1 = .ok () → disk (m.rawwrite sector sect st).2 sector = sect
  cleared : ∀ st, Ready st → Ready (m.clearCache st) ∧ disk (m.clearCache st) = disk st

/-- What is promised of a call that has saved the number `n`. -/
structure Saves {σ : Type} (m : Machine σ) (place : Placement) (disk : σ → Int → Nat → Byte) (Ready : σ → Prop) (n : Nat) (st : σ)
    (r : Outcome σ) : Prop where
  /-- The next boot reads the number, unless the drive fails. -/
  readBack : r.answer = .ok () → ∀ st' buf, Ready st' → disk st' = disk r.state → (m.grubOpen st').1 = .ok () →
    (m.grubRead (m.grubOpen st').2).1.length = recordLen → readDefault m buf st' = n
  written : ∀ sector ∈ r.written, ∃ p ∈ place.reported, p.sector = sector
  unchanged : r.answer = .ok () → ∀ sector i, disk r.state sector i ≠ disk st sector i → ∃ p ∈ place.reported, p.Holds sector i
  refused : place.resident → r.answer ≠ .ok () ∧ r.written = []
  inside : r.escaped = false

/-- The promise, for all that `savedefault` can find. -/
def RoundTrip (place : Placement) (n : Nat) : Prop :=
  ∀ (σ : Type) (m : Machine σ) (disk : σ → Int → Nat → Byte) (Ready : σ → Prop), Sound m place disk Ready →
    ∀ g first second arg script st, Ready st → g.entryno arg = .ok n →
      Saves m place disk Ready n st (savedefaultFunc m g first second arg script st)

/-! ## The text of a number -/

section Text
variable {n : Nat}

/-- The digits that a number needs. -/
theorem digitsRev_length (k : Nat) : ∀ {fuel n : Nat}, k + 1 < fuel → ((digitsRev fuel n).length ≤ k + 1 ↔ n < 10 ^ (k + 1)) := by
  induction k with
  | zero =>
    intro fuel n hfuel
    obtain ⟨fuel, rfl⟩ : ∃ f, fuel = f + 2 := ⟨fuel - 2, by omega⟩
    rw [digitsRev, List.length_cons]
    by_cases hlast : n / 10 = 0
    · rw [if_pos hlast]
      simp only [List.length_nil]
      omega
    · rw [if_neg hlast, digitsRev, List.length_cons]
      omega
  | succ k ih =>
    intro fuel n hfuel
    obtain ⟨fuel, rfl⟩ : ∃ f, fuel = f + 1 := ⟨fuel - 1, by omega⟩
    have htail := @ih fuel (n / 10) (by omega)
    rw [digitsRev, List.length_cons, Nat.pow_succ]
    by_cases hlast : n / 10 = 0
    · rw [if_pos hlast]
      have hpos : 0 < 10 ^ (k + 1) := Nat.pow_pos (by decide)
      simp only [List.length_nil]
      omega
    · rw [if_neg hlast]
      omega

theorem convertToAscii_length : (convertToAscii n).length ≤ 9 ↔ n < 10 ^ 9 := by
  rw [convertToAscii, List.length_reverse]
  exact digitsRev_length 8 (by decide)

/-- The record starts with the digits and a zero, when there is room. -/
theorem record_eq (h : n < 10 ^ 9) : ∃ rest, (record n).set (recordLen - 1) 0 = convertToAscii n ++ 0 :: rest := by
  have hlen := convertToAscii_length.2 h
  have htake : record n = convertToAscii n ++ 0 :: (List.replicate recordLen 0x0A).take (recordLen - (convertToAscii n).length - 1) := by
    obtain ⟨k, hk⟩ : ∃ k, recordLen - (convertToAscii n).length = k + 1 := ⟨9 - (convertToAscii n).length, by unfold recordLen; omega⟩
    rw [record, sprintfEntryno, List.append_assoc, List.take_append, List.take_of_length_le (by unfold recordLen; omega), hk]
    rfl
  rw [htake, List.set_append_right _ _ (by unfold recordLen; omega)]
  cases hplace : recordLen - 1 - (convertToAscii n).length with
  | zero => exact ⟨_, rfl⟩
  | succ k => exact ⟨_, rfl⟩

theorem record_length (n : Nat) : (record n).length = recordLen := by
  rw [record, List.length_take, List.length_append, List.length_replicate]
  omega

/-- The next boot reads the number. -/
theorem savedEntryno_record (h : n < 10 ^ 9) (buf : List Byte) : savedEntryno buf (record n) = n := by
  obtain ⟨rest, hrecord⟩ := record_eq h
  unfold savedEntryno
  rw [if_neg (by rw [record_length]; decide), record_length]
  have hset : (record n ++ buf.drop recordLen).set (recordLen - 1) 0 = convertToAscii n ++ 0 :: (rest ++ buf.drop recordLen) := by
    rw [List.set_append_left _ _ (by rw [record_length]; decide), hrecord, List.append_assoc, List.cons_append]
  have hparsed : safeParseMaxint (convertToAscii n ++ 0 :: (rest ++ buf.drop recordLen)) = .ok (n, 0 :: (rest ++ buf.drop recordLen)) :=
    Partition.safeParseMaxint_printed (by omega) (by decide) (by decide) _
  simp only [hset, hparsed]
  rfl

end Text

/-! ## Patches -/

section Patch
variable {sect : Nat → Byte} {bytes : List Byte} {p : Piece}

theorem patch_eq_store {a : Nat} (h : a + bytes.length ≤ sectorSize) : patch sect a bytes = Memory.store sect a bytes := by
  funext i
  unfold patch Memory.store
  by_cases hlo : a ≤ i
  · rw [if_pos hlo, List.getD_eq_getElem?_getD, show ((i : Int) - a).toNat = i - a by omega]
    by_cases hhi : i < sectorSize
    · rw [if_pos ⟨Int.ofNat_le.2 hlo, hhi⟩]
    · rw [if_neg fun h => hhi h.2, List.getElem?_eq_none (by omega)]
      rfl
  · rw [if_neg hlo, if_neg fun h => hlo (Int.ofNat_le.1 h.1)]

/-- Only the bytes of the piece change. -/
theorem patch_of_not_holds (hlen : (bytes.length : Int) = p.length) {i : Nat} (h : ¬ p.Holds p.sector i) :
    patch sect p.offset bytes i = sect i := by
  unfold patch
  by_cases hlo : p.offset ≤ i ∧ i < sectorSize
  · have hhi : p.offset + p.length ≤ i := Int.not_lt.1 fun hlt => h ⟨rfl, hlo.1, hlt⟩
    rw [if_pos hlo, List.getElem?_eq_none (by omega)]
    rfl
  · rw [if_neg hlo]

/-- The bytes of the piece are the ones stored. -/
theorem slice_patch (hfits : 0 ≤ p.offset ∧ 0 < p.length ∧ p.offset + p.length ≤ sectorSize) (hlen : (bytes.length : Int) = p.length) :
    slice (patch sect p.offset bytes) p.offset.toNat p.length.toNat = bytes := by
  obtain ⟨a, ha⟩ := Int.eq_ofNat_of_zero_le hfits.1
  rw [ha, patch_eq_store (by omega)]
  exact Memory.slice_store _ _ (by omega)

end Patch

/-! ## The calls -/

section Calls
variable {σ : Type} {m : Machine σ} {place : Placement} {disk : σ → Int → Nat → Byte} {Ready : σ → Prop} {st : σ} {sector offset : Int}
  {bytes : List Byte}

/-- What the change of a sector comes to. -/
structure Updated (disk : σ → Int → Nat → Byte) (Ready : σ → Prop) (sector offset : Int) (bytes : List Byte) (st : σ) (r : Outcome σ) :
    Prop where
  ready : Ready r.state
  elsewhere : ∀ other, other ≠ sector → disk r.state other = disk st other
  stored : r.answer = .ok () → disk r.state sector = patch (disk st sector) offset bytes
  written : ∀ s ∈ r.written, s = sector
  inside : InSect offset bytes → r.escaped = false

theorem Sound.update (h : Sound m place disk Ready) (hready : Ready st) (sector offset : Int) (bytes : List Byte) :
    Updated disk Ready sector offset bytes st (updateSector m sector offset bytes st) := by
  obtain ⟨hready₁, hdisk₁⟩ := h.rawread sector st hready
  unfold updateSector
  rcases hread : m.rawread sector st with ⟨_ | sect, st₁⟩
  · rw [hread] at hready₁ hdisk₁
    exact ⟨hready₁, fun other _ => congrFun hdisk₁ other, fun h => (by cases h), fun s hs => (by cases hs), fun _ => rfl⟩
  · have hcontents := h.contents sector sect st hready (by rw [hread])
    rw [hread] at hready₁ hdisk₁
    obtain ⟨hready₂, hother⟩ := h.rawwrite sector (patch sect offset bytes) st₁ hready₁
    have hstored := h.stored sector (patch sect offset bytes) st₁ hready₁
    refine ⟨hready₂, fun other hne => (hother other hne).trans (congrFun hdisk₁ other), fun hok => ?_, fun s hs => List.mem_singleton.1 hs,
      fun hin => ?_⟩
    · rw [← hcontents]
      exact hstored hok
    · exact decide_eq_false (not_not.2 hin)

/-- What the write of the record comes to. -/
structure Stored (disk : σ → Int → Nat → Byte) (Ready : σ → Prop) (pieces : List Piece) (buf : List Byte) (st : σ) (r : Outcome σ) :
    Prop where
  ready : Ready r.state
  content : r.answer = .ok () → content pieces (disk r.state) = buf
  unchanged : r.answer = .ok () → ∀ sector i, disk r.state sector i ≠ disk st sector i → ∃ p ∈ pieces, p.Holds sector i
  written : ∀ s ∈ r.written, ∃ p ∈ pieces, p.sector = s
  inside : r.escaped = false

section Updates
variable {p q : Piece} {r r' : Outcome σ} {buf : List Byte}

/-- The first piece has been changed. -/
theorem Updated.stored_one (h : Updated disk Ready p.sector p.offset bytes st r)
    (hfits : 0 ≤ p.offset ∧ 0 < p.length ∧ p.offset + p.length ≤ sectorSize) (hlen : (bytes.length : Int) = p.length) :
    Stored disk Ready [p] bytes st r where
  ready := h.ready
  content hok := by
    show slice (disk r.state p.sector) p.offset.toNat p.length.toNat ++ [] = bytes
    rw [h.stored hok, slice_patch hfits hlen, List.append_nil]
  unchanged hok sector i hne := by
    refine ⟨p, List.mem_singleton.2 rfl, by_contra fun hnot => hne ?_⟩
    by_cases hsector : sector = p.sector
    · rw [hsector] at hnot ⊢
      rw [h.stored hok, patch_of_not_holds hlen hnot]
    · rw [h.elsewhere sector hsector]
  written s hs := ⟨p, List.mem_singleton.2 rfl, (h.written s hs).symm⟩
  inside := h.inside ⟨hfits.1, by omega⟩

/-- The second piece, after the first one. -/
theorem Stored.append {bytes' : List Byte} (h : Stored disk Ready [p] bytes st r) (h' : Stored disk Ready [q] bytes' r.state r')
    (hok : r.answer = .ok ()) (hp : 0 ≤ p.offset)
    (hapart : p.sector = q.sector → p.offset + p.length ≤ q.offset ∨ q.offset + q.length ≤ p.offset) :
    Stored disk Ready [p, q] (bytes ++ bytes') st ⟨r'.answer, r.written ++ r'.written, r.escaped || r'.escaped, r'.state⟩ where
  ready := h'.ready
  content hok' := by
    have hkept :
        slice (disk r'.state p.sector) p.offset.toNat p.length.toNat = slice (disk r.state p.sector) p.offset.toNat p.length.toNat := by
      refine Memory.slice_congr fun i hlo hhi => by_contra fun hne => ?_
      obtain ⟨d, hd, hsector, hin⟩ := h'.unchanged hok' p.sector i hne
      rw [List.mem_singleton.1 hd] at hsector hin
      have hside := hapart hsector.symm
      omega
    have hfirst := h.content hok
    have hsecond := h'.content hok'
    unfold Builtins.content at hfirst hsecond ⊢
    rw [List.flatMap_singleton] at hfirst hsecond
    rw [List.flatMap_cons, List.flatMap_singleton, hkept, hfirst, hsecond]
  unchanged hok' sector i hne := by
    by_cases hsecond : disk r'.state sector i = disk r.state sector i
    · obtain ⟨d, hd, hholds⟩ := h.unchanged hok sector i (hsecond ▸ hne)
      exact ⟨d, List.mem_cons.2 (.inl (List.mem_singleton.1 hd)), hholds⟩
    · obtain ⟨d, hd, hholds⟩ := h'.unchanged hok' sector i hsecond
      exact ⟨d, List.mem_cons_of_mem _ hd, hholds⟩
  written s hs := by
    obtain hs | hs := List.mem_append.1 hs
    · obtain ⟨d, hd, hsector⟩ := h.written s hs
      exact ⟨d, List.mem_cons.2 (.inl (List.mem_singleton.1 hd)), hsector⟩
    · obtain ⟨d, hd, hsector⟩ := h'.written s hs
      exact ⟨d, List.mem_cons_of_mem _ hd, hsector⟩
  inside := by
    rw [h.inside, h'.inside]
    rfl

/-- A call that fails at the first piece. -/
theorem Stored.failed {bytes' : List Byte} (h : Stored disk Ready [p] bytes st r) (hfailed : r.answer ≠ .ok ()) :
    Stored disk Ready [p, q] bytes' st r where
  ready := h.ready
  content hok := absurd hok hfailed
  unchanged hok := absurd hok hfailed
  written s hs := by
    obtain ⟨d, hd, hsector⟩ := h.written s hs
    exact ⟨d, List.mem_cons.2 (.inl (List.mem_singleton.1 hd)), hsector⟩
  inside := h.inside

end Updates

theorem unsigned_length {x : Int} (hpos : 0 < x) (hle : x ≤ sectorSize) : (unsigned x : Int) = x := by
  have hsize : sectorSize = 512 := rfl
  unfold unsigned
  omega

/-- One piece. -/
theorem Sound.store_one (h : Sound m place disk Ready) (hready : Ready st) {s : Saved} {p : Piece} {buf : List Byte} (hfirst : s.first = p)
    (hfits : 0 ≤ p.offset ∧ 0 < p.length ∧ p.offset + p.length ≤ sectorSize) (hbuf : buf.length = recordLen) (hlen : p.length = recordLen) :
    Stored disk Ready [p] buf st (storeRecord m s buf st) := by
  have hunsigned := unsigned_length hfits.2.1 (by omega)
  rw [storeRecord, hfirst, if_neg (by omega)]
  exact (h.update hready p.sector p.offset buf).stored_one hfits (by omega)

/-- Two pieces. -/
theorem Sound.store_two (h : Sound m place disk Ready) (hready : Ready st) {s : Saved} {p q : Piece} {buf : List Byte}
    (hfirst : s.first = p)
    (hsecond : s.second = q) (hp : 0 ≤ p.offset ∧ 0 < p.length ∧ p.offset + p.length ≤ sectorSize)
    (hq : 0 ≤ q.offset ∧ 0 < q.length ∧ q.offset + q.length ≤ sectorSize)
    (hapart : p.sector = q.sector → p.offset + p.length ≤ q.offset ∨ q.offset + q.length ≤ p.offset)
    (hbuf : buf.length = recordLen) (hlen : p.length + q.length = recordLen) :
    Stored disk Ready [p, q] buf st (storeRecord m s buf st) := by
  have hunsigned := unsigned_length hp.2.1 (by omega)
  have htake : ((buf.take (unsigned p.length)).length : Int) = p.length := by
    rw [List.length_take]
    omega
  have hdrop : ((buf.drop (unsigned p.length)).length : Int) = q.length := by
    rw [List.length_drop]
    omega
  rw [storeRecord, hfirst, hsecond, if_pos (by omega)]
  have hone := (h.update hready p.sector p.offset (buf.take (unsigned p.length))).stored_one hp htake
  dsimp only
  generalize updateSector m p.sector p.offset (buf.take (unsigned p.length)) st = r at hone ⊢
  split
  next err hanswer => exact hone.failed (by rw [hanswer]; exact fun h => nomatch h)
  next hanswer =>
    have htwo := (h.update hone.ready q.sector q.offset (buf.drop (unsigned p.length))).stored_one hq hdrop
    have hboth := hone.append htwo hanswer hp.1 hapart
    rwa [List.take_append_drop] at hboth

/-- The places where all goes well. -/
theorem Sound.store (h : Sound m place disk Ready) (hready : Ready st) {buf : List Byte} (hbuf : buf.length = recordLen)
    (hlen : place.length = recordLen) (hfew : place.pieces.length ≤ 2) (stack : Saved) (hstart : stack.sectorCount = 0) :
    Stored disk Ready place.pieces buf st (storeRecord m (place.pieces.foldl Saved.savesect stack) buf st) := by
  obtain ⟨count, first, second⟩ := stack
  obtain rfl : count = 0 := hstart
  have hfits := place.fits
  have hapart := place.apart
  unfold Placement.length at hlen
  generalize place.pieces = pieces at hlen hfew hfits hapart ⊢
  match pieces, hfew with
  | [], _ => exact absurd hlen (by decide)
  | [p], _ =>
    rw [List.map_singleton, List.sum_singleton] at hlen
    exact h.store_one hready rfl (hfits p (List.mem_singleton.2 rfl)) hbuf hlen
  | [p, q], _ =>
    rw [List.map_cons, List.map_singleton, List.sum_cons, List.sum_singleton] at hlen
    have hp := hfits p List.mem_cons_self
    have hq := hfits q (List.mem_cons_of_mem _ (List.mem_singleton.2 rfl))
    exact h.store_two hready rfl rfl hp hq ((List.pairwise_pair.1 hapart)) hbuf hlen

/-- The number of sectors that the hook has counted. -/
theorem savesect_sectorCount (told : List Piece) (s : Saved) : (told.foldl Saved.savesect s).sectorCount = s.sectorCount + told.length := by
  induction told generalizing s with
  | nil => rfl
  | cons p told ih =>
    have hone : (s.savesect p).sectorCount = s.sectorCount + 1 := by
      unfold Saved.savesect
      split
      next h => rw [h]
      next h => rw [h]
      next h => rw [h]
    rw [List.foldl_cons, ih, hone, List.length_cons]
    omega

end Calls

/-! ## The promise -/

section Promise
variable {σ : Type} {m : Machine σ} {place : Placement} {disk : σ → Int → Nat → Byte} {Ready : σ → Prop} {st : σ} {n : Nat}

/-- A call that is refused. -/
theorem Saves.refuse (err : GrubError) (st' : σ) : Saves m place disk Ready n st ⟨.error err, [], false, st'⟩ where
  readBack hok := nomatch hok
  written _ hs := nomatch hs
  unchanged hok := nomatch hok
  refused _ := ⟨fun hok => (nomatch hok), rfl⟩
  inside := rfl

/-- The record reaches the disk, and the next boot. -/
theorem Sound.saves (h : Sound m place disk Ready) {r : Outcome σ} (hstored : Stored disk Ready place.pieces (record n) st r)
    (hn : n < 10 ^ 9)
    (htold : place.resident = false) : Saves m place disk Ready n st r := by
  have hreported : place.reported = place.pieces := if_neg (by rw [htold]; decide)
  refine ⟨fun hok st' buf hready hdisk hopen hlen => ?_, ?_, ?_, fun hresident => ?_, hstored.inside⟩
  · obtain ⟨hready', hsame⟩ := h.opened st' hready
    obtain ⟨-, hbytes, -⟩ := h.delivered _ hready' hlen
    rw [hsame, hdisk, hstored.content hok] at hbytes
    unfold readDefault
    rcases hcall : m.grubOpen st' with ⟨_ | _, st₁⟩
    · rw [hcall] at hopen
      cases hopen
    · rw [hcall] at hbytes
      show savedEntryno buf (m.grubRead st₁).1 = n
      rw [hbytes, savedEntryno_record hn]
  · rw [hreported]
    exact hstored.written
  · rw [hreported]
    exact hstored.unchanged
  · rw [htold] at hresident
    exact absurd hresident Bool.false_ne_true

theorem sprintfEntryno_length (n : Nat) : (sprintfEntryno n).length ≤ recordLen ↔ n < 10 ^ 9 := by
  rw [sprintfEntryno, List.length_append, ← convertToAscii_length]
  show _ + 1 ≤ 10 ↔ _
  omega

/-- **A call of `savedefault`.** -/
theorem Sound.saveEntryno (h : Sound m place disk Ready) (hready : Ready st) (first second : Piece)
    (hplace : place.length < recordLen ∨ place.resident = false ∧ (2 < place.pieces.length ∨ n < 10 ^ 9)) :
    Saves m place disk Ready n st (saveEntryno m (.start first second) n st) := by
  obtain ⟨hready₁, hdisk₁⟩ := h.opened st hready
  rcases hopen : m.grubOpen st with ⟨err | _, st₁⟩
  · simp only [Builtins.saveEntryno, hopen]
    exact .refuse err st₁
  rw [hopen] at hready₁ hdisk₁
  obtain ⟨hready₂, hdisk₂⟩ := h.read st₁ hready₁
  have hdelivered := h.delivered st₁ hready₁
  rcases hread : m.grubRead st₁ with ⟨bytes, told, st₂⟩
  rw [hread] at hready₂ hdisk₂ hdelivered
  simp only [Builtins.saveEntryno, hopen, hread]
  by_cases hlen : bytes.length = recordLen
  · obtain ⟨hlength, -, htold⟩ := hdelivered hlen
    obtain ⟨hresident, hcase⟩ := hplace.resolve_left (by omega)
    have hreported : told = place.pieces := htold.trans (if_neg (by rw [hresident]; decide))
    have hcount : (told.foldl Saved.savesect (.start first second)).sectorCount = place.pieces.length := by
      rw [savesect_sectorCount, hreported]
      exact Nat.zero_add _
    rw [if_neg (not_not.2 hlen), hcount]
    by_cases hmany : 2 < place.pieces.length
    · rw [if_pos hmany]
      exact .refuse _ _
    · have hn := hcase.resolve_left hmany
      have hstored := h.store hready₂ (record_length n) hlength (Nat.not_lt.1 hmany) (.start first second) rfl
      rw [if_neg hmany, hreported]
      generalize storeRecord m (place.pieces.foldl Saved.savesect (.start first second)) (record n) st₂ = r at hstored
      obtain ⟨hclear, hcleared⟩ := h.cleared r.state hstored.ready
      have hstate : Ready (if r.answer.toBool then m.clearCache r.state else r.state) ∧
          disk (if r.answer.toBool then m.clearCache r.state else r.state) = disk r.state := by
        split
        · exact ⟨hclear, hcleared⟩
        · exact ⟨hstored.ready, rfl⟩
      refine h.saves ⟨hstate.1, fun hok => ?_, fun hok sector i hne => ?_, hstored.written, ?_⟩ hn hresident
      · rw [hstate.2]
        exact hstored.content hok
      · rw [hstate.2] at hne
        refine hstored.unchanged hok sector i ?_
        rwa [hdisk₂, hdisk₁]
      · rw [hstored.inside, Bool.false_or]
        exact decide_eq_false (Nat.not_lt.2 ((sprintfEntryno_length n).2 hn))
  · rw [if_pos hlen]
    exact .refuse _ _

end Promise

/-! ## A drive that never fails -/

section Plain
variable (place : Placement) {n : Nat}

/-- The state is the disk. -/
def Placement.plain : Machine (Int → Nat → Byte) where
  grubOpen disk := (.ok (), disk)
  grubRead disk := (content place.pieces disk, place.reported, disk)
  rawread sector disk := (.ok (disk sector), disk)
  rawwrite sector sect disk := (.ok (), Function.update disk sector sect)
  clearCache disk := disk

theorem content_length (hfits : ∀ p ∈ place.pieces, 0 ≤ p.offset ∧ 0 < p.length ∧ p.offset + p.length ≤ sectorSize)
    (disk : Int → Nat → Byte) :
    ((content place.pieces disk).length : Int) = place.length := by
  unfold content Placement.length
  generalize place.pieces = pieces at hfits ⊢
  induction pieces with
  | nil => rfl
  | cons p pieces ih =>
    have hp := hfits p List.mem_cons_self
    rw [List.flatMap_cons, List.length_append, Memory.slice_length, List.map_cons, List.sum_cons,
      ← ih fun q hq => hfits q (List.mem_cons_of_mem _ hq)]
    omega

theorem Placement.plain_sound : Sound place.plain place (fun disk => disk) fun _ => True where
  opened _ _ := ⟨trivial, rfl⟩
  read _ _ := ⟨trivial, rfl⟩
  delivered disk _ hlen := by
    refine ⟨?_, rfl, rfl⟩
    rw [← content_length place place.fits disk]
    exact congrArg Nat.cast hlen
  rawread _ _ _ := ⟨trivial, rfl⟩
  contents _ sect disk _ hok := by
    cases hok
    rfl
  rawwrite _ _ _ _ := ⟨trivial, fun _ hne => Function.update_of_ne hne _ _⟩
  stored _ _ _ _ _ := Function.update_self _ _ _
  cleared _ _ := ⟨trivial, rfl⟩

/-- A blank disk, and the entry `n` chosen in the menu. -/
def Placement.saved (n : Nat) : Outcome (Int → Nat → Byte) :=
  savedefaultFunc place.plain ⟨n, []⟩ ⟨0, 0, recordLen⟩ ⟨0, 0, recordLen⟩ [] true fun _ _ => 0

theorem Placement.saved_eq (hlen : place.length = recordLen) (hfew : place.reported.length ≤ 2) :
    (place.saved n).answer = (storeRecord place.plain (place.reported.foldl Saved.savesect (.start ⟨0, 0, recordLen⟩ ⟨0, 0, recordLen⟩))
      (record n)
      fun _ _ => 0).answer ∧ (recordLen < (sprintfEntryno n).length → (place.saved n).escaped = true) := by
  have hread : (content place.pieces fun _ _ => 0).length = recordLen :=
    Int.ofNat_inj.1 ((content_length place place.fits _).trans hlen)
  have hcount : ¬ 2 < (place.reported.foldl Saved.savesect (.start ⟨0, 0, recordLen⟩ ⟨0, 0, recordLen⟩)).sectorCount := by
    rw [savesect_sectorCount]
    show ¬ 2 < 0 + _
    omega
  have hnumber : Entries.entryno ⟨n, []⟩ [] = .ok n := rfl
  simp only [Placement.saved, savedefaultFunc, not_true, if_false, hnumber, saveEntryno, Placement.plain, hread, ne_eq,
    hcount, true_and]
  intro hlong
  rw [decide_eq_true hlong, Bool.or_true]

/-- A resident file is overwritten somewhere. -/
theorem not_roundTrip_of_resident (hlen : place.length = recordLen) (hresident : place.resident = true) : ¬ RoundTrip place n := by
  intro h
  have hreported : place.reported = [] := if_pos hresident
  obtain ⟨hanswer, -⟩ := @Placement.saved_eq place n hlen (by rw [hreported]; exact Nat.zero_le _)
  have hsaves := h _ place.plain _ _ place.plain_sound ⟨n, []⟩ ⟨0, 0, recordLen⟩ ⟨0, 0, recordLen⟩ [] true (fun _ _ => 0) trivial rfl
  refine (hsaves.refused hresident).1 (hanswer.trans ?_)
  rw [hreported]
  rfl

/-- A number of ten digits does not fit in the buffer. -/
theorem not_roundTrip_of_long (hlen : place.length = recordLen) (hfew : place.pieces.length ≤ 2) (htold : place.resident = false)
    (hn : 10 ^ 9 ≤ n) : ¬ RoundTrip place n := by
  intro h
  have hreported : place.reported = place.pieces := if_neg (by rw [htold]; decide)
  obtain ⟨-, hescaped⟩ := @Placement.saved_eq place n hlen (by rw [hreported]; exact hfew)
  have hsaves := h _ place.plain _ _ place.plain_sound ⟨n, []⟩ ⟨0, 0, recordLen⟩ ⟨0, 0, recordLen⟩ [] true (fun _ _ => 0) trivial rfl
  have hlong : recordLen < (sprintfEntryno n).length := Nat.not_le.1 fun hle => Nat.not_lt.2 hn ((sprintfEntryno_length n).1 hle)
  exact Bool.false_ne_true (hsaves.inside.symm.trans (hescaped hlong))

/-- **The next boot finds the entry that `savedefault` has saved**, if and only if the file is too short or too
fragmented to be written, or its sectors are told and the number has at most nine digits. -/
theorem roundTrip_iff (n : Nat) :
    RoundTrip place n ↔ place.length < recordLen ∨ place.resident = false ∧ (2 < place.pieces.length ∨ n < 10 ^ 9) := by
  constructor
  · intro h
    by_contra hnot
    rw [not_or] at hnot
    obtain ⟨hlong, hcase⟩ := hnot
    have hshort : place.length ≤ recordLen := place.short
    have hlen : place.length = recordLen := by omega
    cases hresident : place.resident with
    | true => exact not_roundTrip_of_resident place hlen hresident h
    | false =>
      rw [hresident, and_iff_right rfl, not_or, Nat.not_lt, Nat.not_lt] at hcase
      exact not_roundTrip_of_long place hlen hcase.1 hresident hcase.2 h
  · intro hplace σ m disk Ready hsound g first second arg script st hready harg
    unfold savedefaultFunc
    split
    · exact .refuse _ st
    · rw [harg]
      exact hsound.saveEntryno hready first second hplace

/-- The first ten bytes of a sector. -/
def oneSector : Placement where
  pieces := [⟨1, 0, recordLen⟩]
  resident := false
  fits := fun p hp => by
    rw [List.mem_singleton.1 hp]
    decide
  apart := List.pairwise_singleton _ _
  short := by decide

/-- The entry number 1000000000 does not come back. -/
theorem roundTrip_tenDigits : ¬ ∀ place n, RoundTrip place n := fun h =>
  not_roundTrip_of_long oneSector (n := 1000000000) rfl (by decide) rfl (by decide) (h oneSector _)

end Plain

end TrustedGrub.Builtins
