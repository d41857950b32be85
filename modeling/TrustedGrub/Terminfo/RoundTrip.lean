import TrustedGrub.Terminfo.Items
import Mathlib.Data.List.Chain

/-!
# Where the notation is decoded as documented

An escaped string is a capability whose items are those of its bytes. It is read back where
every item comes out as one byte, and as the right one.
-/

namespace TrustedGrub.Terminfo
open Fips180 (Byte)
open CharIo (Word)
open Memory (slice)

/-! ## One byte for each item -/

namespace Item

def isOctal : Item → Bool
  | octal _ _ _ => true
  | _ => false

def isControl : Item → Bool
  | control _ => true
  | _ => false

def isDigit : Item → Bool
  | plain c => Terminfo.isDigit c
  | _ => false

/-- What the decoder makes of an item that stands alone. -/
def code : Item → Byte
  | plain c => c
  | letter code => code.2
  | control _ => 0
  | octal a b c => (shifted a b c).setWidth 8

@[simp] theorem opened_isSome (item : Item) : item.opened.isSome = item.isOctal := by
  cases item <;> rfl

theorem merged_none_iff {p : Option Word} {item : Item} : item.merged p = none ↔ (p.isSome → item.isDigit = false) := by
  cases p with
  | none => cases item <;> simp [merged]
  | some n => cases item <;> simp [merged, isDigit]

/-- An item that is no control character comes out as its code, at once or when its escape ends. -/
theorem bytes_flush {item : Item} (h : item.isControl = false) : item.bytes ++ flush item.opened = [item.code] := by
  cases item with
  | plain => rfl
  | letter => rfl
  | control => cases h
  | octal => rfl

theorem bytes_count (item : Item) : item.bytes.length + (flush item.opened).length ≤ 1 ∧
    (item.bytes.length + (flush item.opened).length = 1 → item.isControl = false) := by
  cases item <;> simp [bytes, opened, flush, isControl]

end Item

/-- No control character, and no digit behind an octal escape. -/
structure Apart (items : List Item) : Prop where
  controls : ∀ item ∈ items, item.isControl = false
  digits : items.IsChain fun item next => item.isOctal = true → next.isDigit = false

/-- The first item does not belong to the octal escape before it. -/
def Ended (p : Option Word) (items : List Item) : Prop := p.isSome → ∀ next ∈ items.head?, next.isDigit = false

section Counting
variable {p : Option Word} {item : Item} {items : List Item}

theorem apart_cons_iff : Apart (item :: items) ↔ item.isControl = false ∧ Ended item.opened items ∧ Apart items := by
  unfold Ended
  rw [Item.opened_isSome]
  constructor
  · intro h
    obtain ⟨hnext, hdigits⟩ := List.isChain_cons.1 h.digits
    refine ⟨h.controls item List.mem_cons_self, fun hoctal next hhead => hnext next hhead hoctal, ?_, hdigits⟩
    exact fun other hother => h.controls other (List.mem_cons_of_mem _ hother)
  · rintro ⟨hcontrol, hnext, hrest⟩
    refine ⟨?_, List.isChain_cons.2 ⟨fun next hhead hoctal => hnext hoctal next hhead, hrest.digits⟩⟩
    simpa [hcontrol] using hrest.controls

/-- There are as many bytes as items only if each item gives its own. -/
theorem scan_length (items : List Item) : ∀ p : Option Word,
    (scan p items).1.length + (flush (scan p items).2).length ≤ (flush p).length + items.length ∧
      ((scan p items).1.length + (flush (scan p items).2).length = (flush p).length + items.length → Apart items ∧ Ended p items) := by
  induction items with
  | nil =>
    intro p
    refine ⟨by simp [scan], fun _ => ⟨⟨by simp, by simp⟩, ?_⟩⟩
    simp [Ended]
  | cons item items ih =>
    intro p
    cases hmerged : item.merged p with
    | some n =>
      obtain ⟨m, c, rfl, -⟩ := merged_digit hmerged
      have hcount := (ih (some n)).1
      rw [scan_merged hmerged]
      simp only [flush, List.length_cons, List.length_nil] at hcount ⊢
      refine ⟨by omega, fun heq => ?_⟩
      omega
    | none =>
      obtain ⟨hcount, hequal⟩ := ih item.opened
      obtain ⟨hone, hcontrol⟩ := item.bytes_count
      rw [scan_apart hmerged]
      simp only [List.length_append, List.length_cons]
      refine ⟨by omega, fun heq => ?_⟩
      obtain ⟨hapart, hended⟩ := hequal (by omega)
      refine ⟨apart_cons_iff.2 ⟨hcontrol (by omega), hended, hapart⟩, ?_⟩
      simpa [Ended] using Item.merged_none_iff.1 hmerged

theorem scan_codes : ∀ {p : Option Word}, Apart items → Ended p items →
    (scan p items).1 ++ flush (scan p items).2 = flush p ++ items.map Item.code := by
  induction items with
  | nil =>
    intro p _ _
    simp [scan]
  | cons item items ih =>
    intro p hapart hended
    obtain ⟨hcontrol, hnext, hrest⟩ := apart_cons_iff.1 hapart
    have hmerged : item.merged p = none := Item.merged_none_iff.2 fun hsome => hended hsome item rfl
    rw [scan_apart hmerged, List.append_assoc, ih hrest hnext, List.append_assoc, ← List.append_assoc item.bytes, Item.bytes_flush hcontrol]
    rfl

/-- An escape is open at the end if the last item is one. -/
theorem scan_open : ∀ {p : Option Word}, Apart items → Ended p items → items ≠ [] →
    ((scan p items).2.isSome ↔ ∃ item ∈ items.getLast?, item.isOctal = true) := by
  induction items with
  | nil =>
    intro p _ _ hsome
    exact absurd rfl hsome
  | cons item items ih =>
    intro p hapart hended _
    obtain ⟨-, hnext, hrest⟩ := apart_cons_iff.1 hapart
    have hmerged : item.merged p = none := Item.merged_none_iff.2 fun hsome => hended hsome item rfl
    rw [scan_apart hmerged]
    cases items with
    | nil => simp [scan]
    | cons next items =>
      dsimp only
      rw [ih hrest hnext (List.cons_ne_nil _ _), List.getLast?_cons_cons]

end Counting

/-! ## Regions -/

/-- The decoder over the items of a region, from the start. -/
theorem unescapeMemory_texts {items : List Item} (outBuffer : Nat → Byte) (after : List Byte) (hvalid : ∀ item ∈ items, item.Valid)
    (hsome : items ≠ []) :
    ∃ d count, unescapeMemory outBuffer (after.length + 1) (texts items ++ after) = d.close (after.length + 1) (scan none items).2 ∧
      d.input = after ∧
      Decoder.Emits ⟨texts items ++ after, 0, outBuffer, 0⟩ (scan none items).1 count d ∧
        count + (flush (scan none items).2).length ≤ items.length := by
  obtain ⟨d, count, hclose, hinput, hemits, hcount⟩ := close_texts (p := none) (d := ⟨texts items ++ after, 0, outBuffer, 0⟩) hvalid rfl
  refine ⟨d, count, ?_, hinput, hemits, by simpa [flush] using hcount⟩
  have hlong : after.length + 1 ≤ (texts items ++ after).length := by
    obtain ⟨item, rest, rfl⟩ := List.exists_cons_of_ne_nil hsome
    have htext : item.text ≠ [] := by
      cases item <;> exact List.cons_ne_nil _ _
    have hpos := List.length_pos_iff.2 htext
    rw [texts, List.flatMap_cons, List.length_append, List.length_append]
    omega
  rw [← hclose, unescapeMemory]
  show _ = Decoder.resume _ _
  unfold Decoder.resume
  rw [if_pos hlong]

/-- The decoder comes to the end of the region, and nothing else is put out than what `scan` says. -/
theorem unescapeMemory_closed {items : List Item} (outBuffer : Nat → Byte) (after : List Byte) (hvalid : ∀ item ∈ items, item.Valid)
    (hsome : items ≠ [])
    (hclosed : (scan none items).2.isSome → Closed after) :
    ∃ d, unescapeMemory outBuffer (after.length + 1) (texts items ++ after) = some d ∧ d.input = after ∧
      Decoder.Emits ⟨texts items ++ after, 0, outBuffer, 0⟩ ((scan none items).1 ++ flush (scan none items).2) items.length d := by
  obtain ⟨d₁, count, hclose, hinput, hemits, hcount⟩ := unescapeMemory_texts outBuffer after hvalid hsome
  obtain ⟨d, hend, hafter, hemits'⟩ := close_end hinput hclosed
  have htotal := hemits.trans hemits'
  have hwritten := htotal.written
  have hcounted := htotal.counted
  refine ⟨d, hclose.trans hend, hafter, htotal.out, htotal.buffer, htotal.kept, by omega, ?_, htotal.reached⟩
  dsimp only at hwritten ⊢
  omega

/-- The items of the region come out as they are documented, the region is read and nothing behind it, and the buffer is not left. -/
def Decodes (outBuffer : Nat → Byte) (items : List Item) (after : List Byte) : Prop :=
  ∃ d, unescapeMemory outBuffer (after.length + 1) (texts items ++ after) = some d ∧ d.input = after ∧ d.out = items.length ∧
    slice d.outBuffer 0 items.length = items.map Item.byte ∧ d.written ≤ 256

/-- Each item comes out as documented. -/
structure Decodable (items : List Item) (after : List Byte) : Prop where
  apart : Apart items
  octals : ∀ a b c, .octal a b c ∈ items → b = 0 ∧ (a = 0 ∨ a = 4)
  closed : ∀ item ∈ items.getLast?, item.isOctal = true → Closed after
  fits : items.length ≤ 256

/-- The digits are put together four bits at a time, not three. -/
theorem shifted_eq_iff : ∀ a b c : Fin 8, (Item.octal a b c).code = (Item.octal a b c).byte ↔ b = 0 ∧ (a = 0 ∨ a = 4) := by
  decide +kernel

theorem code_eq_iff {item : Item} (h : item.isControl = false) :
    item.code = item.byte ↔ ∀ a b c, item = .octal a b c → b = 0 ∧ (a = 0 ∨ a = 4) := by
  cases item with
  | plain => simp [Item.code, Item.byte]
  | letter => simp [Item.code, Item.byte]
  | control => cases h
  | octal a b c =>
    rw [shifted_eq_iff]
    constructor
    · intro hdigits a' b' c' heq
      cases heq
      exact hdigits
    · exact fun hdigits => hdigits a b c rfl

theorem decodes_iff {items : List Item} {after : List Byte} {outBuffer : Nat → Byte} (hvalid : ∀ item ∈ items, item.Valid)
    (hsome : items ≠ []) :
    Decodes outBuffer items after ↔ Decodable items after := by
  obtain ⟨-, hequal⟩ := scan_length items none
  constructor
  · rintro ⟨d, hd, hinput, hout, hbuffer, hwritten⟩
    have hclosed : (scan none items).2.isSome → Closed after := by
      intro hopen
      by_contra hnot
      obtain ⟨d₁, count, hclose, hinput₁, -⟩ := unescapeMemory_texts outBuffer after hvalid hsome
      obtain ⟨n, hn⟩ := Option.isSome_iff_exists.1 hopen
      rw [hn] at hclose
      exact close_beyond hinput₁ hnot d (hclose.symm.trans hd) hinput
    obtain ⟨d', hd', -, hemits⟩ := unescapeMemory_closed outBuffer after hvalid hsome hclosed
    obtain rfl : d' = d := Option.some.inj (hd'.symm.trans hd)
    have hcount := hemits.out
    rw [List.length_append, hout] at hcount
    obtain ⟨hapart, hended⟩ := hequal (by simpa [flush] using hcount.symm)
    have hcodes := scan_codes hapart hended
    have hbytes := hemits.buffer
    rw [hcodes] at hbytes
    have hmap : items.map Item.code = items.map Item.byte := by
      simpa [flush, hbuffer] using hbytes.symm
    refine ⟨hapart, fun a b c hmem => ?_, fun item hlast hoctal => ?_, ?_⟩
    · exact (shifted_eq_iff a b c).1 (List.map_inj_left.1 hmap _ hmem)
    · exact hclosed ((scan_open hapart hended hsome).2 ⟨item, hlast, hoctal⟩)
    · have hreached := hemits.reached (Nat.le_refl 0)
      omega
  · rintro ⟨hapart, hoctals, hclosed, hfits⟩
    have hended : Ended none items := fun h => absurd h Bool.false_ne_true
    have hopen : (scan none items).2.isSome → Closed after := by
      intro hopen
      obtain ⟨item, hlast, hoctal⟩ := (scan_open hapart hended hsome).1 hopen
      exact hclosed item hlast hoctal
    obtain ⟨d, hd, hinput, hemits⟩ := unescapeMemory_closed outBuffer after hvalid hsome hopen
    have hmap : items.map Item.code = items.map Item.byte := by
      apply List.map_congr_left
      intro item hmem
      apply (code_eq_iff (hapart.controls item hmem)).2
      rintro a b c rfl
      exact hoctals a b c hmem
    rw [scan_codes hapart hended, hmap] at hemits
    have hout := hemits.out
    have hbuffer := hemits.buffer
    have hwritten := hemits.written
    simp only [flush, List.nil_append, List.length_map] at hout hbuffer hwritten
    exact ⟨d, hd, hinput, by omega, hbuffer, by omega⟩

/-! ## Strings -/

/-- The item that `ti_escape_memory` writes for a byte. -/
def itemOf (c : Byte) : Item :=
  if c = 0x1B then .letter (0x65, 0x1B)
  else if c = 0x20 then .letter (0x73, 0x20)
  else if c = 0x5C then .letter (0x5C, 0x5C)
  else if isPlain c then .plain c
  else if c ≤ 25 then .control (0x41 + c)
  else .octal (if c.msb then 7 else 0) (.ofNat 8 (c.toNat / 16)) (.ofNat 8 c.toNat)

/-- The bytes that are escaped with digits. -/
def escapesOctal (c : Byte) : Bool := isPlain c = false ∧ 25 < c ∧ c ≠ 0x1B ∧ c ≠ 0x20 ∧ c ≠ 0x5C

theorem itemOf_byte : ∀ c : Byte, (itemOf c).text = escaped c ∧ 0 ∉ escaped c ∧ (itemOf c).isOctal = escapesOctal c ∧
    (itemOf c).isDigit = isDigit c ∧ ((itemOf c).isControl = false ↔ 25 < c) ∧
    (25 < c → ((itemOf c).code = c ↔ (escapesOctal c = true → c &&& 0x88 = 0))) ∧ (c ≤ 25 → 0x41 ≤ 0x41 + c ∧ 0x41 + c ≤ 0x5A) := by
  decide +kernel

theorem text_itemOf (c : Byte) : (itemOf c).text = escaped c := (itemOf_byte c).1

theorem escaped_ne_zero (c : Byte) : 0 ∉ escaped c := (itemOf_byte c).2.1

theorem itemOf_octal (c : Byte) : (itemOf c).isOctal = escapesOctal c := (itemOf_byte c).2.2.1

theorem itemOf_digit (c : Byte) : (itemOf c).isDigit = isDigit c := (itemOf_byte c).2.2.2.1

theorem itemOf_control (c : Byte) : (itemOf c).isControl = false ↔ 25 < c := (itemOf_byte c).2.2.2.2.1

/-- Bits 3 and 7 of a byte are not in its digits. -/
theorem itemOf_code (c : Byte) (h : 25 < c) : (itemOf c).code = c ↔ (escapesOctal c = true → c &&& 0x88 = 0) :=
  (itemOf_byte c).2.2.2.2.2.1 h

theorem itemOf_valid (c : Byte) : (itemOf c).Valid := by
  have hplain : isPlain 0x5E = false := by decide
  unfold itemOf
  split
  · simp [Item.Valid, named]
  · split
    · simp [Item.Valid, named]
    · split
      · simp [Item.Valid, named]
      next hbackslash =>
        split
        next hc =>
          refine ⟨fun hcaret => ?_, hbackslash⟩
          rw [hcaret, hplain] at hc
          cases hc
        next =>
          split
          next hlow => exact (itemOf_byte c).2.2.2.2.2.2 hlow
          next => trivial

/-- The bytes whose items are written; for the empty string, the NUL is. -/
def sourced (s : List Byte) : List Byte := if s = [] then [0] else s

theorem texts_itemOf (s : List Byte) : texts (s.map itemOf) = s.flatMap escaped := by
  unfold texts
  rw [List.flatMap_map]
  simp only [text_itemOf]

theorem escapeMemory_append {s : List Byte} (hs : s ≠ []) (after : List Byte) :
    escapeMemory (after.length + 1) (s ++ 0 :: after) = some (s.flatMap escaped ++ [0]) := by
  induction s with
  | nil => exact absurd rfl hs
  | cons c s ih =>
    rw [List.cons_append, escapeMemory]
    by_cases hrest : s = []
    · simp [hrest]
    · have hlong : after.length + 1 < (s ++ 0 :: after).length := by
        have := List.length_pos_iff.2 hrest
        simp
        omega
      rw [if_pos hlong, ih hrest]
      simp

theorem escapeString_eq {s : List Byte} (hs : 0 ∉ s) (after : List Byte) :
    escapeString (s ++ 0 :: after) = some (texts ((sourced s).map itemOf) ++ [0]) := by
  have hlast : (s ++ 0 :: after).length - s.length = after.length + 1 := by simp
  rw [escapeString, strlen_append hs, Option.bind_some, hlast, texts_itemOf]
  unfold sourced
  by_cases hnil : s = []
  · simp [hnil, escapeMemory]
  · rw [if_neg hnil, escapeMemory_append hnil]

/-- What is escaped is decoded as its items, and the NUL behind them. -/
theorem unescapeString_eq (outBuffer : Nat → Byte) (s stale : List Byte) :
    unescapeString outBuffer (texts (s.map itemOf) ++ [0] ++ stale) =
      unescapeMemory outBuffer (stale.length + 1) (texts (s.map itemOf ++ [.plain 0]) ++ stale) := by
  have hzero : 0 ∉ texts (s.map itemOf) := by
    rw [texts_itemOf, List.mem_flatMap]
    rintro ⟨c, -, hmem⟩
    exact escaped_ne_zero c hmem
  have htexts : texts (s.map itemOf ++ [.plain 0]) = texts (s.map itemOf) ++ [0] := by
    unfold texts
    rw [List.flatMap_append]
    rfl
  rw [htexts, List.append_assoc, List.singleton_append, unescapeString, strlen_append hzero, Option.bind_some]
  congr 1
  simp

theorem scan_append (items items' : List Item) : ∀ p : Option Word,
    scan p (items ++ items') = ((scan p items).1 ++ (scan (scan p items).2 items').1, (scan (scan p items).2 items').2) := by
  induction items with
  | nil =>
    intro p
    simp [scan]
  | cons item items ih =>
    intro p
    rw [List.cons_append]
    cases hmerged : item.merged p with
    | some n => rw [scan_merged hmerged, scan_merged hmerged, ih]
    | none =>
      rw [scan_apart hmerged, scan_apart hmerged, ih]
      simp only [List.append_assoc]

/-- The NUL ends an escape. -/
theorem scan_concat (items : List Item) :
    scan none (items ++ [.plain 0]) = ((scan none items).1 ++ flush (scan none items).2 ++ [0], none) := by
  have hmerged (p : Option Word) : (Item.plain 0).merged p = none := Item.merged_none_iff.2 fun _ => by decide
  rw [scan_append, scan_apart (hmerged _)]
  simp [Item.bytes, Item.opened, scan]

/-- `ti_unescape_string` gives back what `ti_escape_string` was given. -/
def RoundTrips (outBuffer : Nat → Byte) (s after stale : List Byte) : Prop :=
  ∃ e d, escapeString (s ++ 0 :: after) = some e ∧ unescapeString outBuffer (e ++ stale) = some d ∧
    slice d.outBuffer 0 (s.length + 1) = s ++ [0] ∧ (e.length ≤ 256 → d.written ≤ 256)

/-- No control character below 26, no byte with bit 3 or 7 among those that are escaped with digits, and no digit behind one of these. -/
structure Legible (s : List Byte) : Prop where
  bytes : ∀ c ∈ s, 25 < c ∧ (escapesOctal c = true → c &&& 0x88 = 0)
  apart : s.IsChain fun c next => escapesOctal c = true → isDigit next = false

theorem apart_itemOf_iff {s : List Byte} : Apart (s.map itemOf) ↔
    (∀ c ∈ s, 25 < c) ∧ s.IsChain fun c next => escapesOctal c = true → isDigit next = false := by
  have hcontrols : (∀ item ∈ s.map itemOf, item.isControl = false) ↔ ∀ c ∈ s, 25 < c := by
    simp only [List.forall_mem_map, itemOf_control]
  have hchain : (s.map itemOf).IsChain (fun item next => item.isOctal = true → next.isDigit = false) ↔
      s.IsChain fun c next => escapesOctal c = true → isDigit next = false := by
    simp only [List.isChain_map, itemOf_octal, itemOf_digit]
  exact ⟨fun h => ⟨hcontrols.1 h.controls, hchain.1 h.digits⟩, fun h => ⟨hcontrols.2 h.1, hchain.2 h.2⟩⟩

theorem codes_eq_iff (s : List Byte) : (s.map itemOf).map Item.code = s ↔ ∀ c ∈ s, (itemOf c).code = c := by
  rw [List.map_map]
  constructor
  · intro h c hc
    exact List.map_inj_left.1 (h.trans (List.map_id s).symm) c hc
  · exact fun h => (List.map_congr_left h).trans (List.map_id s)

/-- What comes out of the items of `s` is `s` just where `s` is legible. -/
theorem scan_itemOf_iff (s : List Byte) : (scan none (s.map itemOf)).1 ++ flush (scan none (s.map itemOf)).2 = s ↔ Legible s := by
  constructor
  · intro h
    have hlength := congrArg List.length h
    rw [List.length_append] at hlength
    obtain ⟨hapart, hended⟩ := (scan_length (s.map itemOf) none).2 (by simpa [flush] using hlength)
    rw [scan_codes hapart hended, flush, List.nil_append, codes_eq_iff] at h
    obtain ⟨hcontrols, hchain⟩ := apart_itemOf_iff.1 hapart
    exact ⟨fun c hc => ⟨hcontrols c hc, (itemOf_code c (hcontrols c hc)).1 (h c hc)⟩, hchain⟩
  · intro h
    have hapart : Apart (s.map itemOf) := apart_itemOf_iff.2 ⟨fun c hc => (h.bytes c hc).1, h.apart⟩
    have hended : Ended none (s.map itemOf) := fun hsome => absurd hsome Bool.false_ne_true
    rw [scan_codes hapart hended, flush, List.nil_append, codes_eq_iff]
    exact fun c hc => (itemOf_code c (h.bytes c hc).1).2 (h.bytes c hc).2

/-- A string in the buffer ends at its first NUL, so that no shorter one can be in its place. -/
theorem slice_eq_string {b : Nat → Byte} {s t : List Byte} (hs : 0 ∉ s) (ht : slice b 0 (t.length + 1) = t ++ [0])
    (hlength : t.length ≤ s.length) :
    slice b 0 (s.length + 1) = s ++ [0] ↔ t = s := by
  constructor
  · intro h
    have hend : b t.length = 0 := by
      have hlast := congrArg (fun bytes : List Byte => bytes[t.length]?) ht
      simp only [Memory.slice_getElem?, Nat.lt_succ_self, if_true, Nat.zero_add] at hlast
      simpa using hlast
    have hsame : t.length = s.length := by
      by_contra hne
      have hin : t.length < s.length := by omega
      have hat := congrArg (fun bytes : List Byte => bytes[t.length]?) h
      simp only [Memory.slice_getElem?, Nat.zero_add, hend, if_pos (show t.length < s.length + 1 by omega),
        List.getElem?_append_left hin] at hat
      exact hs (List.mem_of_getElem? hat.symm)
    rw [hsame, h] at ht
    exact (List.append_cancel_right ht).symm
  · rintro rfl
    exact ht

/-- The escaped empty string is a control character, which is not put out. -/
theorem scan_sourced (s : List Byte) :
    ((scan none ((sourced s).map itemOf)).1 ++ flush (scan none ((sourced s).map itemOf)).2 = s ↔ Legible s) ∧
      ((scan none ((sourced s).map itemOf)).1 ++ flush (scan none ((sourced s).map itemOf)).2).length ≤ s.length := by
  by_cases hnil : s = []
  · have hnothing : (scan none ((sourced []).map itemOf)).1 ++ flush (scan none ((sourced []).map itemOf)).2 = [] := by decide
    have hlegible : Legible [] := ⟨by simp, .nil⟩
    subst hnil
    rw [hnothing]
    exact ⟨iff_of_true rfl hlegible, Nat.le_refl 0⟩
  · have hcount := (scan_length (s.map itemOf) none).1
    rw [sourced, if_neg hnil, List.length_append]
    refine ⟨scan_itemOf_iff s, ?_⟩
    simpa [flush] using hcount

theorem length_texts (items : List Item) : items.length ≤ (texts items).length := by
  induction items with
  | nil => exact Nat.le_refl 0
  | cons item items ih =>
    have htext : 1 ≤ item.text.length := by
      cases item <;> simp [Item.text]
    have hcons : (texts (item :: items)).length = item.text.length + (texts items).length := by
      simp [texts]
    rw [List.length_cons, hcons]
    omega

theorem roundTrips_iff {outBuffer : Nat → Byte} {s after stale : List Byte} (hs : 0 ∉ s) :
    RoundTrips outBuffer s after stale ↔ Legible s := by
  have hvalid : ∀ item ∈ (sourced s).map itemOf ++ [.plain 0], item.Valid := by
    intro item hitem
    rcases List.mem_append.1 hitem with hmem | hmem
    · obtain ⟨c, -, rfl⟩ := List.mem_map.1 hmem
      exact itemOf_valid c
    · rw [List.mem_singleton.1 hmem]
      exact ⟨by decide, by decide⟩
  have hscan := scan_concat ((sourced s).map itemOf)
  obtain ⟨hlegible, hlength⟩ := scan_sourced s
  obtain ⟨d, hd, -, hemits⟩ := unescapeMemory_closed outBuffer stale hvalid (List.concat_ne_nil _ _) fun hopen => by
    rw [hscan] at hopen
    cases hopen
  have hresult := (unescapeString_eq outBuffer (sourced s) stale).trans hd
  have hbuffer := hemits.buffer
  have hwritten := hemits.written
  rw [hscan, flush, List.append_nil, List.length_append, List.length_singleton] at hbuffer
  have hfits : (texts ((sourced s).map itemOf) ++ [0]).length ≤ 256 → d.written ≤ 256 := by
    have htexts := length_texts ((sourced s).map itemOf)
    simp only [List.length_append, List.length_singleton] at hwritten ⊢
    omega
  have hstring := (slice_eq_string hs hbuffer hlength).trans hlegible
  constructor
  · rintro ⟨e, d', he, hd', hslice, -⟩
    obtain rfl := Option.some.inj ((escapeString_eq hs after).symm.trans he)
    obtain rfl := Option.some.inj (hresult.symm.trans hd')
    exact hstring.1 hslice
  · exact fun h => ⟨_, d, escapeString_eq hs after, hresult, hstring.2 h, hfits⟩

/-- **What the notation means and what the decoder makes of it are the same** just for strings of bytes that survive the escapes, and for
items without control characters whose octal digits mean the same in four bits as in three. -/
theorem notation_iff {s : List Byte} (hs : 0 ∉ s) {items : List Item} (hvalid : ∀ item ∈ items, item.Valid) (hsome : items ≠ [])
    (outBuffer : Nat → Byte) (after stale : List Byte) :
    (RoundTrips outBuffer s after stale ↔ Legible s) ∧ (Decodes outBuffer items after ↔ Decodable items after) :=
  ⟨roundTrips_iff hs, decodes_iff hvalid hsome⟩

/-- `!a` is read back, and `\E[` is decoded. -/
theorem notation_escape :
    RoundTrips (fun _ => 0) [0x21, 0x61] [] [] ∧ Decodes (fun _ => 0) [.letter (0x45, 0x1B), .plain 0x5B, .plain 0] [] := by
  have hs : (0 : Byte) ∉ ([0x21, 0x61] : List Byte) := by decide
  have hvalid : ∀ item ∈ [Item.letter (0x45, 0x1B), .plain 0x5B, .plain 0], item.Valid := by simp [Item.Valid, named]
  obtain ⟨hstring, hitems⟩ := notation_iff hs hvalid (List.cons_ne_nil _ _) (fun _ => 0) [] []
  refine ⟨hstring.2 ⟨by decide, by decide⟩, hitems.2 ⟨⟨by simp [Item.isControl], by simp [Item.isOctal]⟩, by simp, ?_, by decide⟩⟩
  simp [Item.isOctal]

/-- `(` comes back as a space, and `\033` is not decoded as ESC. -/
theorem notation_misread : (∃ e, escapeString [0x28, 0] = some e ∧ e.length ≤ 256) ∧ ¬ RoundTrips (fun _ => 0) [0x28] [] [] ∧
    ¬ Decodes (fun _ => 0) [.octal 0 3 3, .plain 0] [] := by
  refine ⟨⟨_, escapeString_eq (s := [0x28]) (by decide) [], by decide⟩, fun h => ?_, fun h => ?_⟩
  · have hlegible := (roundTrips_iff (by decide)).1 h
    exact absurd ((hlegible.bytes 0x28 List.mem_cons_self).2 (by decide)) (by decide)
  · have hvalid : ∀ item ∈ [Item.octal 0 3 3, .plain 0], item.Valid := by simp [Item.Valid]
    have hdecodable := (decodes_iff hvalid (List.cons_ne_nil _ _)).1 h
    exact absurd (hdecodable.octals 0 3 3 List.mem_cons_self).1 (by decide)

end TrustedGrub.Terminfo
