import TrustedGrub.Terminfo.Escape

/-!
# Capabilities as items

A capability in the notation is a list of items, and each item stands for a byte. What the
decoder makes of the items is a list as well (`scan`), which need not be as long: a control
character is overwritten by the next one, and digits behind an octal escape belong to it.
-/

namespace TrustedGrub.Terminfo
open Fips180 (Byte)
open CharIo (Word)
open Memory (slice)

/-! ## The notation -/

/-- The letters that the notation names, and their characters. -/
def named : List (Byte × Byte) :=
  [(0x65, 0x1B), (0x45, 0x1B), (0x6E, 10), (0x72, 13), (0x74, 9), (0x62, 8), (0x66, 12), (0x73, 0x20), (0x5E, 0x5E), (0x5C, 0x5C),
    (0x2C, 0x2C), (0x3A, 0x3A)]

inductive Item where
  | plain (c : Byte)
  | letter (code : Byte × Byte)
  | control (x : Byte)
  | octal (a b c : Fin 8)

namespace Item

/-- An item of the notation: what is neither a caret nor a backslash, a letter it names, a control character, or three octal digits. -/
def Valid : Item → Prop
  | plain c => c ≠ 0x5E ∧ c ≠ 0x5C
  | letter code => code ∈ named
  | control x => 0x41 ≤ x ∧ x ≤ 0x5A
  | octal _ _ _ => True

def digit (k : Fin 8) : Byte := .ofNat 8 (0x30 + k)

/-- How it is written. -/
def text : Item → List Byte
  | plain c => [c]
  | letter code => [0x5C, code.1]
  | control x => [0x5E, x]
  | octal a b c => [0x5C, digit a, digit b, digit c]

/-- What it stands for. -/
def byte : Item → Byte
  | plain c => c
  | letter code => code.2
  | control x => x - 0x40
  | octal a b c => .ofNat 8 (64 * a + 8 * b + c)

end Item

def texts (items : List Item) : List Byte := items.flatMap Item.text

/-! ## What the decoder makes of it -/

/-- The three digits, as the decoder puts them together. -/
def shifted (a b c : Fin 8) : Word := addDigit (addDigit (addDigit 0 (Item.digit a)) (Item.digit b)) (Item.digit c)

namespace Item

/-- What is put out at once. -/
def bytes : Item → List Byte
  | plain c => [c]
  | letter code => [code.2]
  | control _ => []
  | octal _ _ _ => []

/-- The octal escape that is open behind the item. -/
def opened : Item → Option Word
  | octal a b c => some (shifted a b c)
  | _ => none

/-- A digit belongs to the octal escape that is open before it. -/
def merged : Option Word → Item → Option Word
  | some n, plain c => if isDigit c then some (addDigit n c) else none
  | _, _ => none

end Item

/-- The byte of an octal escape that ends here. -/
def flush : Option Word → List Byte
  | none => []
  | some n => [n.setWidth 8]

/-- The bytes of the items, and the octal escape that is open behind them, if `p` is open before them. -/
def scan : Option Word → List Item → List Byte × Option Word
  | p, [] => ([], p)
  | p, item :: items =>
    match item.merged p with
    | some n => scan (some n) items
    | none => (flush p ++ item.bytes ++ (scan item.opened items).1, (scan item.opened items).2)

/-- Digits up to here, the first of them read already. -/
def octalFrom (n : Word) : List Byte → Option (Word × List Byte)
  | [] => none
  | next :: input => if isDigit next then octal n next input else some (n, next :: input)

namespace Decoder

/-- The loop is entered again, unless `in` is behind `end`. -/
def resume (last : Nat) (d : Decoder) : Option Decoder := if last ≤ d.input.length then d.run last else some d

/-- The octal escape is read to its end, then the rest. -/
def close (last : Nat) (p : Option Word) (d : Decoder) : Option Decoder :=
  match p with
  | none => d.resume last
  | some n => (octalFrom n d.input).bind fun r => ((d.skip r.2).put (r.1.setWidth 8)).resume last

/-- `bytes` have been put out, and no more than `count` have been written. -/
structure Emits (d : Decoder) (bytes : List Byte) (count : Nat) (d' : Decoder) : Prop where
  out : d'.out = d.out + bytes.length
  buffer : slice d'.outBuffer d.out bytes.length = bytes
  kept : ∀ k < d.out, d'.outBuffer k = d.outBuffer k
  counted : bytes.length ≤ count
  written : d'.written ≤ max d.written (d.out + count)
  reached : d.out ≤ d.written → d'.out ≤ d'.written

end Decoder

section Decoding
variable {d d' d'' : Decoder} {last : Nat} {bytes bytes' : List Byte} {count count' : Nat}

theorem run_eq (last : Nat) (d : Decoder) : d.run last = d.turn.bind fun d' => d'.resume last := by
  unfold Decoder.run
  cases d.turn <;> rfl

theorem octal_eq (n : Word) (c : Byte) (input : List Byte) : octal n c input = octalFrom (addDigit n c) input := by
  cases input <;> rfl

theorem Decoder.Emits.skip (d : Decoder) (input : List Byte) : d.Emits [] 0 (d.skip input) := by
  apply Decoder.Emits.mk
  all_goals simp [Decoder.skip]

theorem Decoder.Emits.trans (h : d.Emits bytes count d') (h' : d'.Emits bytes' count' d'') :
    d.Emits (bytes ++ bytes') (count + count') d'' := by
  have hcount := h.counted
  have hcount' := h'.counted
  have hout := h.out
  have hout' := h'.out
  have hwritten := h.written
  have hwritten' := h'.written
  apply Decoder.Emits.mk
  · rw [List.length_append]
    omega
  · have hfirst : slice d''.outBuffer d.out bytes.length = slice d'.outBuffer d.out bytes.length := by
      apply Memory.slice_congr
      intro x _ hx
      exact h'.kept x (by omega)
    rw [List.length_append, Memory.slice_add, hfirst, h.buffer, ← hout, h'.buffer]
  · intro k hk
    rw [h'.kept k (by omega), h.kept k hk]
  · rw [List.length_append]
    omega
  · omega
  · exact fun hreached => h'.reached (h.reached hreached)

theorem Decoder.Emits.put (d : Decoder) (input : List Byte) (c : Byte) : d.Emits [c] 1 ((d.skip input).put c) := by
  apply Decoder.Emits.mk
  · rfl
  · simp [slice, Decoder.put, Decoder.poke, Decoder.skip]
  · intro k hk
    simp [Decoder.put, Decoder.poke, Decoder.skip, Nat.ne_of_lt hk]
  · simp
  · simp [Decoder.put, Decoder.poke, Decoder.skip]
  · simp [Decoder.put, Decoder.poke, Decoder.skip]

/-- What is not followed by `out++` is overwritten. -/
theorem Decoder.Emits.poke (d : Decoder) (input : List Byte) (c : Byte) : d.Emits [] 1 ((d.skip input).poke c) := by
  apply Decoder.Emits.mk
  · rfl
  · rfl
  · intro k hk
    simp [Decoder.poke, Decoder.skip, Nat.ne_of_lt hk]
  · simp
  · simp [Decoder.poke, Decoder.skip]
  · simp [Decoder.poke, Decoder.skip]

/-! ## The loop, item by item -/

theorem turn_plain {c : Byte} {input : List Byte} (hinput : d.input = c :: input) (hc : c ≠ 0x5E ∧ c ≠ 0x5C) :
    d.turn = some ((d.skip input).put c) := by
  unfold Decoder.turn
  simp only [hinput, if_neg hc.1, if_neg hc.2]

theorem turn_control {x : Byte} {input : List Byte} (hinput : d.input = 0x5E :: x :: input) (hx : 0x41 ≤ x ∧ x ≤ 0x5A) :
    d.turn = some ((d.skip input).poke (x - 0x41)) := by
  unfold Decoder.turn
  simp only [hinput, if_true, if_pos hx]

/-- The letters that the notation names are in the table of the decoder. -/
theorem named_found : ∀ code ∈ named, isDigit code.1 = false ∧ letters.find? (fun other => other.1 = code.1) = some code := by
  have hall : named.all (fun code => !isDigit code.1 && letters.find? (fun other => other.1 = code.1) == some code) = true := by decide
  intro code hcode
  have hfound := List.all_eq_true.1 hall code hcode
  rw [Bool.and_eq_true, Bool.not_eq_true', beq_iff_eq] at hfound
  exact hfound

theorem turn_letter {code : Byte × Byte} {input : List Byte} (hinput : d.input = 0x5C :: code.1 :: input) (hcode : code ∈ named) :
    d.turn = some ((d.skip input).put code.2) := by
  obtain ⟨hdigit, hfind⟩ := named_found code hcode
  have hcaret : (0x5C : Byte) ≠ 0x5E := by decide
  unfold Decoder.turn
  simp only [hinput, if_neg hcaret, if_true, hdigit, Bool.false_eq_true, if_false, hfind]

theorem isDigit_digit : ∀ k : Fin 8, isDigit (Item.digit k) = true := by decide

theorem octalFrom_digit {n : Word} {c : Byte} (h : isDigit c = true) (input : List Byte) :
    octalFrom n (c :: input) = octalFrom (addDigit n c) input := by
  rw [← octal_eq]
  simp only [octalFrom, h, if_true]

theorem turn_octal {a b c : Fin 8} {input : List Byte} (hinput : d.input = (Item.octal a b c).text ++ input) :
    d.turn = (octalFrom (shifted a b c) input).map fun r => (d.skip r.2).put (r.1.setWidth 8) := by
  have hcaret : (0x5C : Byte) ≠ 0x5E := by decide
  have hdigits : octal 0 (Item.digit a) (Item.digit b :: Item.digit c :: input) = octalFrom (shifted a b c) input := by
    rw [octal_eq, octalFrom_digit (isDigit_digit b), octalFrom_digit (isDigit_digit c)]
    rfl
  unfold Decoder.turn
  simp only [hinput, Item.text, List.cons_append, List.nil_append, if_neg hcaret, if_true, isDigit_digit a, hdigits]

theorem resume_run (h : last ≤ d.input.length) : d.close last none = d.turn.bind fun d' => d'.close last none := by
  show d.resume last = d.turn.bind fun d' => d'.resume last
  unfold Decoder.resume
  rw [if_pos h, run_eq]
  rfl

/-- One turn, for an item before which no octal escape is open. -/
theorem close_item {item : Item} {input : List Byte} (hvalid : item.Valid) (hinput : d.input = item.text ++ input)
    (hlast : last ≤ d.input.length) :
    ∃ d' count, d.close last none = d'.close last item.opened ∧ d'.input = input ∧ d.Emits item.bytes count d' ∧
      count + (flush item.opened).length ≤ 1 := by
  cases item with
  | plain c =>
    refine ⟨_, 1, ?_, rfl, .put d input c, Nat.le_refl 1⟩
    rw [resume_run hlast, turn_plain hinput hvalid]
    rfl
  | letter code =>
    refine ⟨_, 1, ?_, rfl, .put d input code.2, Nat.le_refl 1⟩
    rw [resume_run hlast, turn_letter hinput hvalid]
    rfl
  | control x =>
    refine ⟨_, 1, ?_, rfl, .poke d input (x - 0x41), Nat.le_refl 1⟩
    rw [resume_run hlast, turn_control hinput hvalid]
    rfl
  | octal a b c =>
    refine ⟨d.skip input, 0, ?_, rfl, .skip d input, Nat.le_refl 1⟩
    rw [resume_run hlast, turn_octal hinput, Option.bind_map]
    rfl

/-- An octal escape ends where no digit follows. -/
theorem close_flush (last : Nat) {p : Option Word} {next : Byte} {input : List Byte} (hinput : d.input = next :: input)
    (hnext : p.isSome → isDigit next = false) :
    ∃ d', d.close last p = d'.close last none ∧ d'.input = d.input ∧ d.Emits (flush p) (flush p).length d' := by
  cases p with
  | none => exact ⟨d, rfl, rfl, .skip d d.input⟩
  | some n =>
    have hoctal : octalFrom n d.input = some (n, d.input) := by
      simp [hinput, octalFrom, hnext rfl]
    refine ⟨(d.skip d.input).put (n.setWidth 8), ?_, rfl, .put d d.input (n.setWidth 8)⟩
    show (octalFrom n d.input).bind _ = _
    rw [hoctal]
    rfl

/-- An item that does not belong to the octal escape before it ends it. -/
theorem text_begins {p : Option Word} {item : Item} (hmerged : item.merged p = none) :
    ∃ next rest, item.text = next :: rest ∧ (p.isSome → isDigit next = false) := by
  have hcaret : isDigit 0x5E = false := by decide
  have hbackslash : isDigit 0x5C = false := by decide
  cases item with
  | plain c =>
    refine ⟨c, [], rfl, fun hsome => ?_⟩
    obtain ⟨n, rfl⟩ := Option.isSome_iff_exists.1 hsome
    simpa [Item.merged] using hmerged
  | letter code => exact ⟨0x5C, [code.1], rfl, fun _ => hbackslash⟩
  | control x => exact ⟨0x5E, [x], rfl, fun _ => hcaret⟩
  | octal a b c => exact ⟨0x5C, _, rfl, fun _ => hbackslash⟩

theorem merged_digit {p : Option Word} {n : Word} {item : Item} (h : item.merged p = some n) :
    ∃ m c, p = some m ∧ item = .plain c ∧ isDigit c = true ∧ n = addDigit m c := by
  cases p with
  | none => cases item <;> cases h
  | some m =>
    cases item with
    | plain c =>
      simp only [Item.merged] at h
      split at h
      next hdigit => exact ⟨m, c, rfl, rfl, hdigit, (Option.some.inj h).symm⟩
      next => cases h
    | letter => cases h
    | control => cases h
    | octal => cases h

theorem close_merged (last : Nat) {p : Option Word} {n : Word} {item : Item} {input : List Byte} (hmerged : item.merged p = some n)
    (hinput : d.input = item.text ++ input) : d.close last p = (d.skip input).close last (some n) := by
  obtain ⟨m, c, rfl, rfl, hdigit, rfl⟩ := merged_digit hmerged
  show (octalFrom m d.input).bind _ = (octalFrom (addDigit m c) input).bind _
  rw [hinput, Item.text, List.singleton_append, octalFrom_digit hdigit]
  rfl

theorem scan_merged {p : Option Word} {n : Word} {item : Item} (h : item.merged p = some n) (items : List Item) :
    scan p (item :: items) = scan (some n) items := by
  simp only [scan, h]

theorem scan_apart {p : Option Word} {item : Item} (h : item.merged p = none) (items : List Item) :
    scan p (item :: items) = (flush p ++ item.bytes ++ (scan item.opened items).1, (scan item.opened items).2) := by
  simp only [scan, h]

/-- The decoder over the items: it puts out what `scan` says, and leaves open what `scan` leaves open. -/
theorem close_texts {after : List Byte} {items : List Item} (hvalid : ∀ item ∈ items, item.Valid) : ∀ {p : Option Word} {d : Decoder},
    d.input = texts items ++ after → ∃ d' count, d.close (after.length + 1) p = d'.close (after.length + 1) (scan p items).2 ∧
      d'.input = after ∧ d.Emits (scan p items).1 count d' ∧
      count + (flush (scan p items).2).length ≤ (flush p).length + items.length := by
  induction items with
  | nil =>
    intro p d hinput
    exact ⟨d, 0, rfl, hinput, .skip d d.input, by simp [scan]⟩
  | cons item items ih =>
    intro p d hinput
    have hrest : ∀ other ∈ items, other.Valid := fun other hother => hvalid other (List.mem_cons_of_mem _ hother)
    have htexts : d.input = item.text ++ (texts items ++ after) := by
      rw [hinput, texts, List.flatMap_cons, List.append_assoc]
      rfl
    cases hmerged : item.merged p with
    | some n =>
      -- a digit of the octal escape
      obtain ⟨m, c, rfl, -⟩ := merged_digit hmerged
      have hdigit := close_merged (after.length + 1) hmerged htexts
      obtain ⟨d', count, hclose, hafter, hemits, hcount⟩ := ih hrest (p := some n) (d := d.skip (texts items ++ after)) rfl
      rw [scan_merged hmerged]
      refine ⟨d', count, hdigit.trans hclose, hafter, ?_, ?_⟩
      · exact ⟨hemits.out, hemits.buffer, hemits.kept, hemits.counted, hemits.written, hemits.reached⟩
      · simp only [flush, List.length_cons] at hcount ⊢
        omega
    | none =>
      obtain ⟨next, begun, hbegin, hnext⟩ := text_begins hmerged
      obtain ⟨d₁, hclose₁, hinput₁, hemits₁⟩ := close_flush (after.length + 1) (htexts.trans (by rw [hbegin]; rfl)) hnext
      have hlast : after.length + 1 ≤ d₁.input.length := by
        rw [hinput₁, htexts, hbegin]
        simp
        omega
      obtain ⟨d₂, count₂, hclose₂, hinput₂, hemits₂, hcount₂⟩ := close_item (hvalid item List.mem_cons_self) (hinput₁.trans htexts) hlast
      obtain ⟨d', count, hclose, hafter, hemits, hcount⟩ := ih hrest hinput₂ (p := item.opened)
      rw [scan_apart hmerged]
      refine ⟨d', (flush p).length + count₂ + count, ?_, hafter, (hemits₁.trans hemits₂).trans hemits, ?_⟩
      · rw [hclose₁, hclose₂, hclose]
      · rw [List.length_cons]
        dsimp only
        omega

/-- `after` goes on with a byte that is no digit. -/
def Closed (after : List Byte) : Prop := ∃ next more, after = next :: more ∧ isDigit next = false

/-- At the end of the region the loop stops, if the escape that is open does not run on. -/
theorem close_end {after : List Byte} {p : Option Word} (hinput : d.input = after) (hclosed : p.isSome → Closed after) :
    ∃ d', d.close (after.length + 1) p = some d' ∧ d'.input = after ∧ d.Emits (flush p) (flush p).length d' := by
  have hstop (d' : Decoder) (h : d'.input = after) : d'.resume (after.length + 1) = some d' := by
    unfold Decoder.resume
    rw [if_neg]
    rw [h]
    omega
  cases p with
  | none => exact ⟨d, hstop d hinput, hinput, .skip d d.input⟩
  | some n =>
    obtain ⟨next, more, hafter, hnext⟩ := hclosed rfl
    have hoctal : octalFrom n d.input = some (n, after) := by
      simp [hinput, hafter, octalFrom, hnext]
    refine ⟨(d.skip after).put (n.setWidth 8), ?_, rfl, .put d after (n.setWidth 8)⟩
    show (octalFrom n d.input).bind _ = _
    rw [hoctal]
    exact hstop _ rfl

/-- An escape that runs on takes bytes from behind the region. -/
theorem close_beyond {after : List Byte} {n : Word} (hinput : d.input = after) (hopen : ¬ Closed after) :
    ∀ d', d.close (after.length + 1) (some n) = some d' → d'.input ≠ after := by
  intro d' hclose heq
  obtain ⟨r, hoctal, hresume⟩ := Option.bind_eq_some_iff.1 hclose
  have hshort : r.2.length < after.length := by
    rw [hinput] at hoctal
    cases after with
    | nil => cases hoctal
    | cons next more =>
      have hnext : isDigit next = true := by
        rw [← Bool.not_eq_false]
        exact fun hnext => hopen ⟨next, more, rfl, hnext⟩
      simp only [octalFrom, hnext, if_true] at hoctal
      exact Nat.lt_succ_of_le (octal_shorter hoctal)
  have hstop : ¬ after.length + 1 ≤ (((d.skip r.2).put (r.1.setWidth 8)).input).length := by
    show ¬ after.length + 1 ≤ r.2.length
    omega
  unfold Decoder.resume at hresume
  rw [if_neg hstop] at hresume
  have hinput' : r.2 = d'.input := congrArg Decoder.input (Option.some.inj hresume)
  rw [hinput', heq] at hshort
  omega

end Decoding

end TrustedGrub.Terminfo
