import TrustedGrub.Disk.BlockName
import TrustedGrub.Partition.DeviceName
import Mathlib.Data.List.Induction

/-!
# The `blocklist` command

`blocklist_func` reads a file with a hook that `rawread` tells each sector it uses, and
prints the sectors as a block-list name. What `grub_open` makes of such a name is
compared with the sectors told.
-/

namespace TrustedGrub.Disk
open Fips180 (Byte)
open TrustedGrub.Partition (convertToAscii safeParseMaxint_printed)

/-- A call of `disk_read_hook`: the bytes used of a sector. -/
structure Report where
  sector : BitVec 32
  offset : Nat
  length : Nat
  positive : 0 < length

/-- What one `grub_read` tells: all its bytes together are counted by an `int`. -/
structure Reports where
  list : List Report
  fits : (list.map Report.length).sum ≤ 0x7FFFFFFF

/-- `%d`. -/
def printInt (n : Int) : List Byte := if n < 0 then 0x2D :: convertToAscii n.natAbs else convertToAscii n.natAbs

/-- The variables of `blocklist_func`, and what has been printed behind the device. While
`numSectors` is zero, `startSector` is not used. -/
structure Printer where
  startSector : BitVec 32
  numSectors : Nat
  numEntries : Nat
  lastLength : Nat
  out : List Byte

def Printer.init : Printer := ⟨0, 0, 0, 0, []⟩

/-- `num_entries ? "," : ""`. -/
def Printer.separator (p : Printer) : List Byte := if p.numEntries = 0 then [] else [0x2C]

/-- `grub_printf` of an entry. -/
def Printer.print (p : Printer) (text : List Byte) : Printer := { p with out := p.out ++ p.separator ++ text }

/-- `%d+%d` of a run. -/
def runText (start : Int) (count : Nat) : List Byte := printInt start ++ 0x2B :: printInt count

/-- `%d[%d-%d]` of a piece of a sector. -/
def pieceText (start : Int) (first last : Nat) : List Byte :=
  printInt start ++ 0x5B :: (printInt first ++ 0x2D :: (printInt last ++ [0x5D]))

/-- The entries that have been collected are printed. -/
def Printer.flush (p : Printer) (partStart : BitVec 32) : Printer :=
  let start := (p.startSector - partStart).toInt
  let last := (p.startSector + BitVec.ofNat 32 (p.numSectors - 1) - partStart).toInt
  let p :=
    if p.lastLength = sectorSize then p.print (runText start p.numSectors)
    else if 1 < p.numSectors then
      p.print (runText start (p.numSectors - 1) ++ 0x2C :: pieceText last 0 p.lastLength)
    else p.print (pieceText start 0 p.lastLength)
  { p with numEntries := p.numEntries + 1, numSectors := 0 }

/-- A report that starts something new. -/
def Printer.begin (p : Printer) (partStart : BitVec 32) (r : Report) : Printer :=
  if 0 < r.offset then
    let p := p.print (pieceText (r.sector - partStart).toInt r.offset (r.offset + r.length))
    { p with numEntries := p.numEntries + 1 }
  else { p with startSector := r.sector, numSectors := 1, lastLength := r.length }

/-- `disk_read_blocklist_func`. -/
def Printer.diskReadBlocklistFunc (partStart : BitVec 32) (p : Printer) (r : Report) : Printer :=
  if 0 < p.numSectors then
    if p.startSector + BitVec.ofNat 32 p.numSectors = r.sector ∧ r.offset = 0 ∧ p.lastLength = sectorSize then
      { p with numSectors := p.numSectors + 1, lastLength := r.length }
    else (p.flush partStart).begin partStart r
  else p.begin partStart r

/-- The last entry, of which no one checks that it is a full sector. -/
def Printer.finish (p : Printer) (partStart : BitVec 32) : Printer :=
  if 0 < p.numSectors then p.print (runText (p.startSector - partStart).toInt p.numSectors) else p

/-- What `blocklist_func` prints behind the device, after a read that went well. -/
def blocklistFunc (partStart : BitVec 32) (reports : List Report) : List Byte :=
  ((reports.foldl (Printer.diskReadBlocklistFunc partStart) .init).finish partStart).out

/-- The sectors of a block list in a partition. -/
def listSectors (partStart : BitVec 32) (list : List (Nat × Nat)) : List (BitVec 32) :=
  list.flatMap fun (start, count) => (List.range count).map fun i => partStart + BitVec.ofNat 32 (start + i)

/-! ## Entries are parsed as they are printed -/

/-- Entries an `int` holds. -/
def Entries (list : List (Nat × Nat)) : Prop := ∀ e ∈ list, e.1 ≤ 0x7FFFFFFF ∧ 0 < e.2 ∧ e.2 ≤ 0x7FFFFFFF

/-- Some entries with a comma behind each. -/
def entriesText (list : List (Nat × Nat)) : List Byte :=
  list.flatMap fun (start, count) => convertToAscii start ++ 0x2B :: (convertToAscii count ++ [0x2C])

theorem parseBlocks_entry {start count : Nat} (hstart : start ≤ 0x7FFFFFFF) (hcount : 0 < count ∧ count ≤ 0x7FFFFFFF)
    (fuel : Nat) (name : BlockName) (rest : List Byte)
    (hptr : name.ptr = convertToAscii start ++ 0x2B :: (convertToAscii count ++ 0x2C :: rest)) :
    parseBlocks (fuel + 1) name = parseBlocks fuel { name with
      overwrites := true
      list := name.list ++ [(start, count)]
      filemax := name.filemax + count * sectorSize
      ptr := rest } := by
  rw [parseBlocks, hptr, safeParseMaxint_printed hstart (by decide) (by decide)]
  simp only [Except.toOption, Option.getD_some]
  split
  next ptr' heq =>
    obtain rfl := (List.cons.inj heq).2
    rw [safeParseMaxint_printed hcount.2 (by decide) (by decide)]
    simp only
    have hgoes : ¬ (count = 0 ∨ ¬ endsAt (fun c => c = 0x2C ∨ c = 0x2F ∨ isspace c) (0x2C :: rest)) := by
      rintro (h | h)
      · omega
      · exact h rfl
    rw [if_neg hgoes]
    split
    next ptr'' heq => rw [(List.cons.inj heq).2]
    next hother => exact absurd rfl (hother _)
  next hother => exact absurd rfl (hother _)

theorem parseBlocks_entries (list : List (Nat × Nat)) : ∀ (name : BlockName) (fuel : Nat) (rest : List Byte), Entries list →
    name.ptr = entriesText list ++ rest → name.ok = false →
    ∃ overwrites filemax, parseBlocks (list.length + fuel) name =
      parseBlocks fuel ⟨overwrites, name.list ++ list, filemax, rest, false⟩ := by
  induction list with
  | nil =>
    intro name fuel rest _ hptr hok
    obtain ⟨overwrites, list, filemax, ptr, ok⟩ := name
    simp only at hptr hok
    subst hptr hok
    exact ⟨overwrites, filemax, by simp⟩
  | cons e list ih =>
    intro name fuel rest hentries hptr hok
    obtain ⟨start, count⟩ := e
    obtain ⟨hstart, hcount⟩ := hentries (start, count) List.mem_cons_self
    have hptr' : name.ptr = convertToAscii start ++ 0x2B :: (convertToAscii count ++ 0x2C :: (entriesText list ++ rest)) := by
      rw [hptr]
      simp [entriesText]
    rw [List.length_cons, Nat.add_right_comm, parseBlocks_entry hstart hcount _ name _ hptr']
    obtain ⟨overwrites, filemax, heq⟩ := ih
      { name with
        overwrites := true
        list := name.list ++ [(start, count)]
        filemax := name.filemax + count * sectorSize
        ptr := entriesText list ++ rest }
      fuel rest (fun e he => hentries e (List.mem_cons_of_mem _ he)) rfl hok
    refine ⟨overwrites, filemax, ?_⟩
    rw [heq]
    simp

/-- A text that ends any list before it, whatever follows. -/
def Refused (text : List Byte) : Prop :=
  ∀ (fuel : Nat) (name : BlockName) (rest : List Byte), name.ptr = text ++ rest → name.ok = false →
    (parseBlocks fuel name).ok = false

/-- What a number goes on with is neither `+` nor the end of a list. -/
abbrev Breaks (c : Byte) : Prop := c ≠ 0x2B ∧ c ≠ 0x2F ∧ isspace c = false

theorem parseBlocks_breaks {name : BlockName} {c : Byte} {rest : List Byte} (hc : Breaks c) {tmp : Nat}
    (hnumber : (safeParseMaxint name.ptr).toOption.getD (0, name.ptr) = (tmp, c :: rest)) (fuel : Nat) :
    (parseBlocks (fuel + 1) name).ok = false := by
  obtain ⟨hplus, hslash, hspace⟩ := hc
  rw [parseBlocks, hnumber]
  simp only
  split
  next ptr' heq => exact absurd (List.cons.inj heq).1 hplus
  next =>
    have hends : ¬ endsAt (fun c => c = 0x2F ∨ isspace c) (c :: rest) := by
      intro h
      rcases of_decide_eq_true h with h | h
      · exact hslash h
      · rw [hspace] at h
        cases h
    rw [if_pos (.inl hends)]

theorem refused_of_breaks {n : Nat} (hn : n ≤ 0x7FFFFFFF) {c : Byte} (hc : Breaks c) (hdigit : digitOf 10 c = none)
    (hx : c ≠ 0x78 ∧ c ≠ 0x58) (text : List Byte) : Refused (convertToAscii n ++ c :: text) := by
  intro fuel name rest hptr hok
  cases fuel with
  | zero => exact hok
  | succ fuel =>
    have hnumber : (safeParseMaxint name.ptr).toOption.getD (0, name.ptr) = (n, c :: (text ++ rest)) := by
      rw [hptr, List.append_assoc, List.cons_append, safeParseMaxint_printed hn hdigit hx]
      rfl
    exact parseBlocks_breaks hc hnumber fuel

theorem refused_minus (text : List Byte) : Refused (0x2D :: text) := by
  intro fuel name rest hptr hok
  cases fuel with
  | zero => exact hok
  | succ fuel =>
    have hnumber : (safeParseMaxint name.ptr).toOption.getD (0, name.ptr) = (0, 0x2D :: (text ++ rest)) := by
      rw [hptr, List.cons_append]
      rfl
    exact parseBlocks_breaks (by decide) hnumber fuel

theorem Refused.append {text : List Byte} (h : Refused text) (more : List Byte) : Refused (text ++ more) := by
  intro fuel name rest hptr hok
  exact h fuel name (more ++ rest) (by rw [hptr, List.append_assoc]) hok

/-- The fuel of `blockName` is enough for the entries and one more. -/
theorem length_le_entriesText (list : List (Nat × Nat)) (text : List Byte) : list.length ≤ (entriesText list ++ text).length := by
  induction list with
  | nil => exact Nat.zero_le _
  | cons e list ih =>
    simp only [entriesText, List.flatMap_cons, List.length_append, List.length_cons] at ih ⊢
    omega

theorem refused_entries {list : List (Nat × Nat)} (hlist : Entries list) {text : List Byte} (h : Refused text) :
    (blockName (entriesText list ++ text)).ok = false := by
  obtain ⟨fuel, hfuel⟩ := Nat.exists_eq_add_of_le (length_le_entriesText list text)
  obtain ⟨overwrites, filemax, heq⟩ := parseBlocks_entries list ⟨false, [], 0, entriesText list ++ text, false⟩ (fuel + 1) text
    hlist rfl rfl
  rw [blockName, hfuel, Nat.add_assoc, heq]
  exact h (fuel + 1) _ [] (by simp) rfl

theorem refused_printInt {n : Int} (hn : n ≤ 0x7FFFFFFF) {c : Byte} (hc : Breaks c) (hdigit : digitOf 10 c = none)
    (hx : c ≠ 0x78 ∧ c ≠ 0x58) (text : List Byte) : Refused (printInt n ++ c :: text) := by
  unfold printInt
  split
  · exact refused_minus _
  · exact refused_of_breaks (by omega) hc hdigit hx text

theorem refused_runText {start : Int} (h : start < 0) (count : Nat) : Refused (runText start count) := by
  rw [runText, printInt, if_pos h]
  exact refused_minus _

theorem refused_pieceText {start : Int} (h : start < 2 ^ 31) (first last : Nat) : Refused (pieceText start first last) :=
  refused_printInt (by omega) (by decide) (by decide) (by decide) _

/-- A number at the end of the text. -/
theorem safeParseMaxint_last {n : Nat} (hn : n ≤ 0x7FFFFFFF) (hpos : 0 < n) :
    safeParseMaxint (convertToAscii n) = .ok (n, []) := by
  have hdigits : parseDigits 10 (convertToAscii n) 0 false = .ok (n, []) := by
    have := Partition.parseDigits_digitsRev 10 (show n < 10 ^ 10 by omega) (by decide) hn []
    rw [List.append_nil] at this
    rw [convertToAscii, this]
    rfl
  obtain ⟨d, hd, more, heq, hzero⟩ := Partition.digitsRev_first 10 (show n < 10 ^ 10 by omega) (by decide)
  have hfirst : BitVec.ofNat 8 (0x30 + d) ≠ (0x30 : Byte) := by
    intro hsame
    have hvalue := congrArg BitVec.toNat hsame
    rw [BitVec.toNat_ofNat] at hvalue
    have hthirty : (0x30 : Byte).toNat = 0x30 := rfl
    rw [hthirty] at hvalue
    exact absurd (hzero (by omega)) (by omega)
  rw [convertToAscii, heq] at hdigits ⊢
  unfold safeParseMaxint
  split
  next hsame => exact absurd (List.cons.inj hsame).1 hfirst
  next => exact hdigits

/-- The last entry, with nothing behind it. -/
theorem blockName_entries {list : List (Nat × Nat)} (hlist : Entries list) {start count : Nat} (hstart : start ≤ 0x7FFFFFFF)
    (hcount : 0 < count ∧ count ≤ 0x7FFFFFFF) :
    (blockName (entriesText list ++ (convertToAscii start ++ 0x2B :: convertToAscii count))).list = list ++ [(start, count)] := by
  obtain ⟨fuel, hfuel⟩ := Nat.exists_eq_add_of_le (length_le_entriesText list
    (convertToAscii start ++ 0x2B :: convertToAscii count))
  obtain ⟨overwrites, filemax, heq⟩ := parseBlocks_entries list
    ⟨false, [], 0, entriesText list ++ (convertToAscii start ++ 0x2B :: convertToAscii count), false⟩ (fuel + 1) _ hlist rfl rfl
  rw [blockName, hfuel, Nat.add_assoc, heq, parseBlocks, safeParseMaxint_printed hstart (by decide) (by decide)]
  simp only [Except.toOption, Option.getD_some]
  split
  next ptr' hptr =>
    obtain rfl := (List.cons.inj hptr).2
    rw [safeParseMaxint_last hcount.2 hcount.1]
    simp only
    have hends : ¬ (count = 0 ∨ ¬ endsAt (fun c => c = 0x2C ∨ c = 0x2F ∨ isspace c) []) := by
      rintro (h | h)
      · omega
      · exact h rfl
    rw [if_neg hends]
    rfl
  next hother => exact absurd rfl (hother _)

/-! ## What has been printed and what has been told -/

variable {partStart : BitVec 32} {p : Printer} {es : List (Nat × Nat)} {rs : List Report}

/-- The whole of a sector is used. -/
def Report.Full (r : Report) : Prop := r.offset = 0 ∧ r.length = sectorSize

/-- All that has been told is printed. -/
structure Closed (partStart : BitVec 32) (p : Printer) (es : List (Nat × Nat)) (rs : List Report) : Prop where
  entries : Entries es
  out : p.out ++ p.separator = entriesText es
  numSectors : p.numSectors = 0
  sectors : listSectors partStart es = rs.map Report.sector
  full : ∀ r ∈ rs, r.Full

/-- The last run is not printed. -/
structure Collecting (partStart : BitVec 32) (p : Printer) (es : List (Nat × Nat)) (rs : List Report) (r : Report) : Prop where
  entries : Entries es
  out : p.out ++ p.separator = entriesText es
  numSectors : 0 < p.numSectors ∧ p.numSectors ≤ rs.length + 1
  sectors : listSectors partStart es ++ (List.range p.numSectors).map (fun i => p.startSector + BitVec.ofNat 32 i) =
    (rs ++ [r]).map Report.sector
  full : ∀ r ∈ rs, r.Full
  offset : r.offset = 0
  lastLength : p.lastLength = r.length

/-- What has been printed is no block list. -/
def Spoiled (p : Printer) : Prop := ∃ es text more, Entries es ∧ Refused text ∧ p.out = entriesText es ++ text ++ more

theorem Spoiled.blockName (h : Spoiled p) : (blockName p.out).ok = false := by
  obtain ⟨es, text, more, hes, htext, hout⟩ := h
  rw [hout, List.append_assoc]
  exact refused_entries hes (htext.append more)

theorem Spoiled.of_out {p' : Printer} (h : Spoiled p) {more : List Byte} (hout : p'.out = p.out ++ more) : Spoiled p' := by
  obtain ⟨es, text, more', hes, htext, hout'⟩ := h
  exact ⟨es, text, more' ++ more, hes, htext, by rw [hout, hout', List.append_assoc]⟩

/-- A text that breaks the list, printed behind entries. -/
theorem spoiled_print {p' : Printer} (hes : Entries es) (hout : p.out ++ p.separator = entriesText es) {text more : List Byte}
    (htext : Refused text) (hprint : p'.out = (p.print (text ++ more)).out) : Spoiled p' := by
  refine ⟨es, text, more, hes, htext, ?_⟩
  rw [hprint, Printer.print, hout, List.append_assoc]

theorem spoiled_printed {p' : Printer} (hes : Entries es) (hout : p.out ++ p.separator = entriesText es) {text : List Byte}
    (htext : Refused text) (hprint : p'.out = (p.print text).out) : Spoiled p' := by
  apply spoiled_print hes hout htext
  rw [hprint, List.append_nil]

theorem printInt_natCast (n : Nat) : printInt n = convertToAscii n := by
  rw [printInt, if_neg (by omega), Int.natAbs_natCast]

/-- A relative sector that is not negative is printed as the number it is. -/
theorem relative_spec {sector : BitVec 32} (h : 0 ≤ (sector - partStart).toInt) :
    (sector - partStart).toInt = (sector - partStart).toNat ∧ (sector - partStart).toNat ≤ 0x7FFFFFFF ∧
      ∀ i, partStart + BitVec.ofNat 32 ((sector - partStart).toNat + i) = sector + BitVec.ofNat 32 i := by
  have hlt := (sector - partStart).isLt
  rw [BitVec.toInt_eq_toNat_cond] at h ⊢
  split at h
  · rename_i hsmall
    rw [if_pos hsmall]
    refine ⟨rfl, by omega, ?_⟩
    intro i
    rw [BitVec.ofNat_add, BitVec.ofNat_toNat, BitVec.setWidth_eq]
    bv_omega
  · omega

theorem relative_lt (partStart sector : BitVec 32) : (sector - partStart).toInt < 2 ^ 31 := BitVec.toInt_lt

/-- A run of full sectors is printed as an entry. -/
theorem Collecting.closed {r : Report} {p' : Printer} (h : Collecting partStart p es rs r) (hfull : r.Full)
    (hfits : rs.length + 1 ≤ 0x7FFFFFFF) (hstart : 0 ≤ (p.startSector - partStart).toInt)
    (hout : p'.out = (p.print (runText (p.startSector - partStart).toInt p.numSectors)).out)
    (hentries : p'.numEntries = p.numEntries + 1) (hnum : p'.numSectors = 0) :
    Closed partStart p' (es ++ [((p.startSector - partStart).toNat, p.numSectors)]) (rs ++ [r]) := by
  obtain ⟨hnat, hle, hsectors⟩ := relative_spec hstart
  obtain ⟨hpos, hcount⟩ := h.numSectors
  constructor
  · intro e he
    rcases List.mem_append.1 he with he | he
    · exact h.entries e he
    · obtain rfl := List.mem_singleton.1 he
      exact ⟨hle, hpos, by omega⟩
  · have hsep : p'.separator = [0x2C] := by rw [Printer.separator, hentries, if_neg (by omega)]
    rw [hout, hsep, Printer.print, h.out, runText, hnat, printInt_natCast, printInt_natCast]
    simp [entriesText]
  · exact hnum
  · rw [← h.sectors]
    simp only [listSectors, List.flatMap_append, List.flatMap_cons, List.flatMap_nil, List.append_nil, hsectors]
  · intro r' hr'
    rcases List.mem_append.1 hr' with hr' | hr'
    · exact h.full r' hr'
    · rw [List.mem_singleton.1 hr']
      exact hfull

/-! Nothing that is printed is taken back. -/

theorem Printer.flush_out (p : Printer) (partStart : BitVec 32) : ∃ more, (p.flush partStart).out = p.out ++ more := by
  unfold Printer.flush
  simp only
  split
  · exact ⟨_, List.append_assoc _ _ _⟩
  split
  · exact ⟨_, List.append_assoc _ _ _⟩
  · exact ⟨_, List.append_assoc _ _ _⟩

theorem Printer.begin_out (p : Printer) (partStart : BitVec 32) (r : Report) :
    ∃ more, (p.begin partStart r).out = p.out ++ more := by
  unfold Printer.begin
  split
  · exact ⟨_, List.append_assoc _ _ _⟩
  · exact ⟨[], (List.append_nil _).symm⟩

theorem Spoiled.flush (h : Spoiled p) : Spoiled (p.flush partStart) := by
  obtain ⟨more, hout⟩ := p.flush_out partStart
  exact h.of_out hout

theorem Spoiled.begin (h : Spoiled p) (r : Report) : Spoiled (p.begin partStart r) := by
  obtain ⟨more, hout⟩ := p.begin_out partStart r
  exact h.of_out hout

theorem Spoiled.report (h : Spoiled p) (r : Report) : Spoiled (p.diskReadBlocklistFunc partStart r) := by
  unfold Printer.diskReadBlocklistFunc
  split
  · split
    · exact h.of_out (List.append_nil _).symm
    · exact h.flush.begin r
  · exact h.begin r

theorem Spoiled.finish (h : Spoiled p) : Spoiled (p.finish partStart) := by
  unfold Printer.finish
  split
  · exact h.of_out (List.append_assoc _ _ _)
  · exact h

/-- Printing the last run leaves all printed, or a text that is no block list. -/
theorem Collecting.flush {r : Report} (h : Collecting partStart p es rs r) (hfits : rs.length + 1 ≤ 0x7FFFFFFF) :
    (∃ es', Closed partStart (p.flush partStart) es' (rs ++ [r])) ∨ Spoiled (p.flush partStart) := by
  unfold Printer.flush
  simp only
  split
  · rename_i hlast
    rcases Int.lt_or_le (p.startSector - partStart).toInt 0 with hneg | hstart
    · right
      exact spoiled_printed h.entries h.out (refused_runText hneg p.numSectors) rfl
    · left
      have hfull : r.Full := ⟨h.offset, by rw [← h.lastLength, hlast]⟩
      exact ⟨_, h.closed hfull hfits hstart rfl rfl rfl⟩
  · right
    split
    · rename_i hmany
      rcases Int.lt_or_le (p.startSector - partStart).toInt 0 with hneg | hstart
      · exact spoiled_print h.entries h.out (refused_runText hneg (p.numSectors - 1)) rfl
      · -- the full sectors are an entry, the last one breaks the list
        obtain ⟨hnat, hle, -⟩ := relative_spec hstart
        obtain ⟨-, hcount⟩ := h.numSectors
        refine ⟨es ++ [((p.startSector - partStart).toNat, p.numSectors - 1)], _, [], ?_,
          refused_pieceText (relative_lt partStart (p.startSector + BitVec.ofNat 32 (p.numSectors - 1))) 0 p.lastLength, ?_⟩
        · intro e he
          rcases List.mem_append.1 he with he | he
          · exact h.entries e he
          · obtain rfl := List.mem_singleton.1 he
            exact ⟨hle, by simp only; omega, by simp only; omega⟩
        · rw [Printer.print, h.out, runText, hnat, printInt_natCast, printInt_natCast]
          simp [entriesText]
    · exact spoiled_printed h.entries h.out (refused_pieceText (relative_lt partStart p.startSector) 0 p.lastLength) rfl

theorem Closed.begin (h : Closed partStart p es rs) (r : Report) :
    Collecting partStart (p.begin partStart r) es rs r ∨ Spoiled (p.begin partStart r) := by
  unfold Printer.begin
  split
  · right
    exact spoiled_printed h.entries h.out (refused_pieceText (relative_lt partStart r.sector) r.offset (r.offset + r.length)) rfl
  · left
    constructor
    · exact h.entries
    · exact h.out
    · simp only
      omega
    · simp [h.sectors]
    · exact h.full
    · omega
    · rfl

theorem Collecting.merge {r r' : Report} (h : Collecting partStart p es rs r)
    (hnext : p.startSector + BitVec.ofNat 32 p.numSectors = r'.sector) (hoffset : r'.offset = 0) (hlast : p.lastLength = sectorSize) :
    Collecting partStart { p with numSectors := p.numSectors + 1, lastLength := r'.length } es (rs ++ [r]) r' := by
  obtain ⟨hpos, hcount⟩ := h.numSectors
  constructor
  · exact h.entries
  · exact h.out
  · simp only [List.length_append, List.length_singleton]
    omega
  · rw [List.map_append, ← h.sectors]
    simp [List.range_succ, hnext]
  · intro r'' hr''
    rcases List.mem_append.1 hr'' with hr'' | hr''
    · exact h.full r'' hr''
    · rw [List.mem_singleton.1 hr'']
      exact ⟨h.offset, by rw [← h.lastLength, hlast]⟩
  · exact hoffset
  · rfl

theorem Collecting.report {r : Report} (h : Collecting partStart p es rs r) (hfits : rs.length + 1 ≤ 0x7FFFFFFF) (r' : Report) :
    (∃ es', Collecting partStart (p.diskReadBlocklistFunc partStart r') es' (rs ++ [r]) r') ∨
      Spoiled (p.diskReadBlocklistFunc partStart r') := by
  rw [Printer.diskReadBlocklistFunc, if_pos h.numSectors.1]
  split
  · rename_i hnext
    exact .inl ⟨es, h.merge hnext.1 hnext.2.1 hnext.2.2⟩
  · rcases h.flush hfits with ⟨es', hclosed⟩ | hspoiled
    · rcases hclosed.begin r' with hcollecting | hspoiled
      · exact .inl ⟨es', hcollecting⟩
      · exact .inr hspoiled
    · exact .inr (hspoiled.begin r')

/-- After some reports the last run is being collected, or what has been printed is no block list. -/
theorem collecting_of_reports (partStart : BitVec 32) (rs : List Report) : ∀ (r : Report), rs.length + 1 ≤ 0x7FFFFFFF →
    (∃ es, Collecting partStart ((rs ++ [r]).foldl (Printer.diskReadBlocklistFunc partStart) .init) es rs r) ∨
      Spoiled ((rs ++ [r]).foldl (Printer.diskReadBlocklistFunc partStart) .init) := by
  induction rs using List.reverseRecOn with
  | nil =>
    intro r _
    have hclosed : Closed partStart .init [] [] := by
      constructor
      · exact fun e he => absurd he (by simp)
      · rfl
      · rfl
      · rfl
      · exact fun r hr => absurd hr (by simp)
    rcases hclosed.begin r with hcollecting | hspoiled
    · exact .inl ⟨[], hcollecting⟩
    · exact .inr hspoiled
  | append_singleton rs last ih =>
    intro r hfits
    rw [List.length_append, List.length_singleton] at hfits
    rw [List.foldl_append]
    rcases ih last (by omega) with ⟨es, hcollecting⟩ | hspoiled
    · exact hcollecting.report (by omega) r
    · exact .inr (hspoiled.report r)

theorem length_le_sum (rs : List Report) : rs.length ≤ (rs.map Report.length).sum := by
  induction rs with
  | nil => exact Nat.zero_le _
  | cons r rs ih =>
    have := r.positive
    simp only [List.length_cons, List.map_cons, List.sum_cons]
    omega

/-- A block list that is printed and accepted names the sectors told, in their order, and
each of them but the last was used as a whole. -/
theorem blocklist_denotes (partStart : BitVec 32) (reports : Reports)
    (h : (blockName (blocklistFunc partStart reports.list)).ok = true) :
    listSectors partStart (blockName (blocklistFunc partStart reports.list)).list = reports.list.map Report.sector ∧
      (∀ r ∈ reports.list.dropLast, r.Full) ∧ ∀ r ∈ reports.list.getLast?, r.offset = 0 := by
  obtain ⟨list, hsum⟩ := reports
  simp only at h ⊢
  rcases List.eq_nil_or_concat' list with rfl | ⟨rs, r, rfl⟩
  · cases h
  have hfits := (length_le_sum (rs ++ [r])).trans hsum
  rw [List.length_append, List.length_singleton] at hfits
  rcases collecting_of_reports partStart rs r hfits with ⟨es, hcollecting⟩ | hspoiled
  · obtain ⟨hpos, hcount⟩ := hcollecting.numSectors
    unfold blocklistFunc at h ⊢
    generalize (rs ++ [r]).foldl (Printer.diskReadBlocklistFunc partStart) .init = p at *
    rw [Printer.finish, if_pos hpos, Printer.print, hcollecting.out] at h ⊢
    rcases Int.lt_or_le (p.startSector - partStart).toInt 0 with hneg | hstart
    · rw [refused_entries hcollecting.entries (refused_runText hneg p.numSectors)] at h
      cases h
    obtain ⟨hnat, hle, hsectors⟩ := relative_spec hstart
    simp only
    rw [runText, hnat, printInt_natCast, printInt_natCast, blockName_entries hcollecting.entries hle ⟨hpos, by omega⟩]
    refine ⟨?_, ?_, ?_⟩
    · rw [← hcollecting.sectors]
      simp only [listSectors, List.flatMap_append, List.flatMap_cons, List.flatMap_nil, List.append_nil, hsectors]
    · rw [List.dropLast_concat]
      exact hcollecting.full
    · intro r' hr'
      rw [List.getLast?_concat] at hr'
      cases hr'
      exact hcollecting.offset
  · rw [blocklistFunc, hspoiled.finish.blockName] at h
    cases h

/-- A file in two pieces, which ends within a sector. -/
def twoPieces : Reports where
  list := [⟨100, 0, 512, by decide⟩, ⟨101, 0, 512, by decide⟩, ⟨200, 0, 100, by decide⟩]
  fits := by decide

/-- It is printed as `37+2,137+1` in a partition at sector 63. -/
theorem blocklist_denotes_twoPieces :
    blocklistFunc 63 twoPieces.list = [0x33, 0x37, 0x2B, 0x32, 0x2C, 0x31, 0x33, 0x37, 0x2B, 0x31] ∧
      listSectors 63 (blockName (blocklistFunc 63 twoPieces.list)).list = [100, 101, 200] := by
  constructor
  · decide
  · exact (blocklist_denotes 63 twoPieces (by decide)).1

/-- A file that goes on within a sector has no block list. -/
example : (blockName (blocklistFunc 63 [⟨100, 0, 512, by decide⟩, ⟨101, 128, 384, by decide⟩])).ok = false := by decide

end TrustedGrub.Disk
