import TrustedGrub.Lib.Numeral
import TrustedGrub.Disk.BlockName

/-!
# Numbers as text

`safe_parse_maxint` and `convert_to_ascii` of `char_io.c`, in the 32-bit arithmetic of
the code: digits are told by unsigned wraparound, and an overflow by an unsigned
division before each step. `Disk.safeParseMaxint` is the same parser over the naturals.
-/

namespace TrustedGrub.CharIo
open Fips180 (Byte)
open Disk (GrubError digitOf parseDigits)
open Numeral (digits behind value valueFrom accumulate written)

abbrev Word := BitVec 32

/-- `MAXINT`. -/
def maxint : Word := 0x7FFFFFFF

/-- `grub_tolower`, of an `int`. -/
def tolower (c : Word) : Word := if (0x41 : Word).sle c ∧ c.sle 0x5A then c + 0x20 else c

/-! ## `safe_parse_maxint` -/

/-- The string that `*str_ptr` points to, `*myint_ptr`, and `errnum`. -/
structure Parse where
  strPtr : List Byte
  myint : Word
  errnum : GrubError
  deriving DecidableEq

/-- `digit` of a character, which is signed; nothing when the loop is left. -/
def digit (mult : Word) (c : Byte) : Option Word :=
  let digit := tolower (c.signExtend 32) - 0x30
  if 9 < digit then
    let digit := digit - (0x61 - 0x30)
    if mult = 10 ∨ 5 < digit then none else some (digit + 10)
  else some digit

/-- How the loop over the digits ends. -/
inductive Scan where
  | overflow
  | stopped (ptr : List Byte) (myint : Word) (found : Bool)

/-- `while (1)`. The zero at the end of the string is no digit. -/
def digitLoop (mult : Word) : List Byte → Word → Bool → Scan
  | [], myint, found => .stopped [] myint found
  | c :: ptr, myint, found =>
    match digit mult c with
    | none => .stopped (c :: ptr) myint found
    | some digit =>
      if (maxint - digit) / mult < myint then .overflow else digitLoop mult ptr (myint * mult + digit) true

/-- Is this a hex number? -/
def isHex : List Byte → Bool
  | c :: c' :: _ => c = 0x30 ∧ tolower (c'.signExtend 32) = 0x78
  | _ => false

def safeParseMaxint (p : Parse) : Bool × Parse :=
  let (ptr, mult) := if isHex p.strPtr then (p.strPtr.drop 2, 16) else (p.strPtr, 10)
  match digitLoop mult ptr 0 false with
  | .overflow => (false, { p with errnum := .numberOverflow })
  | .stopped ptr myint found =>
    if found then (true, { p with strPtr := ptr, myint := myint }) else (false, { p with errnum := .numberParsing })

example : safeParseMaxint ⟨[0x30, 0x58, 0x66, 0x46, 0x2B], 0, .none⟩ = (true, ⟨[0x2B], 255, .none⟩) := by decide

/-! ## `convert_to_ascii` -/

/-- The character of a digit. -/
def asciiDigit (dig : Word) : Byte := (if (9 : Word).slt dig then dig + 0x61 - 10 else 0x30 + dig).setWidth 8

/-- The loop over the digits, the last one first. A word has no more than 32. -/
def asciiLoop (mult : Word) : Nat → Word → List Byte
  | 0, _ => []
  | fuel + 1, num => asciiDigit (num % mult) :: if num / mult = 0 then [] else asciiLoop mult fuel (num / mult)

/-- What `convert_to_ascii (buf, c, num)` stores. -/
def convertToAscii (c : Byte) (num : Word) : List Byte :=
  let mult := if c = 0x78 ∨ c = 0x58 then 16 else 10
  if num &&& 0x80000000 ≠ 0 ∧ c = 0x64 then 0x2D :: (asciiLoop mult 32 (~~~num + 1)).reverse
  else (asciiLoop mult 32 num).reverse

example : convertToAscii 0x78 0x2AF = [0x32, 0x61, 0x66] := by decide

/-! ## The numbers of the text -/

/-- The base of the number that a string begins with. -/
def base (s : List Byte) : Nat := if isHex s then 16 else 10

/-- The string behind `0x`. -/
def unprefixed (s : List Byte) : List Byte := if isHex s then s.drop 2 else s

/-- The digits of the number that a string begins with. -/
def digitsOf (s : List Byte) : List Nat := digits (digitOf (base s)) (unprefixed s)

/-- The string behind the number. -/
def behindNumber (s : List Byte) : List Byte := behind (digitOf (base s)) (unprefixed s)

def valueOf (s : List Byte) : Nat := value (base s) (digitsOf s)

section Parsing
variable {b d acc : Nat} {s : List Byte}

theorem digit_decimal : ∀ c : Byte, digit 10 c = (digitOf 10 c).map (BitVec.ofNat 32) := by decide +kernel

theorem digit_hex : ∀ c : Byte, digit 16 c = (digitOf 16 c).map (BitVec.ofNat 32) := by decide +kernel

theorem base_cases (s : List Byte) : base s = 10 ∨ base s = 16 := by
  unfold base
  split
  · exact .inr rfl
  · exact .inl rfl

/-- The wraparound tells the digits. -/
theorem digit_eq (hb : b = 10 ∨ b = 16) (c : Byte) : digit (.ofNat 32 b) c = (digitOf b c).map (BitVec.ofNat 32) := by
  rcases hb with rfl | rfl
  · exact digit_decimal c
  · exact digit_hex c

theorem digitOf_lt (hb : b = 10 ∨ b = 16) {c : Byte} (h : digitOf b c = some d) : d < b := by
  unfold digitOf at h
  split at h
  · cases h
    omega
  · split at h
    · cases h
      omega
    · split at h
      · cases h
        omega
      · cases h

theorem digits_lt (hb : b = 10 ∨ b = 16) : ∀ d ∈ digits (digitOf b) s, d < b := by
  intro d h
  obtain ⟨c, -, hc⟩ := Numeral.mem_digits h
  exact digitOf_lt hb hc

theorem maxint_toNat : maxint.toNat = 0x7FFFFFFF := rfl

/-- The test for overflow, in words. -/
theorem overflows_iff (hb : b = 10 ∨ b = 16) (hd : d < b) (hacc : acc ≤ 0x7FFFFFFF) :
    (maxint - BitVec.ofNat 32 d) / BitVec.ofNat 32 b < BitVec.ofNat 32 acc ↔ (0x7FFFFFFF - d) / b < acc := by
  have hdigit : (BitVec.ofNat 32 d).toNat = d := by
    rw [BitVec.toNat_ofNat]
    omega
  have hmult : (BitVec.ofNat 32 b).toNat = b := by
    rw [BitVec.toNat_ofNat]
    omega
  have hint : (BitVec.ofNat 32 acc).toNat = acc := by
    rw [BitVec.toNat_ofNat]
    omega
  have hle : BitVec.ofNat 32 d ≤ maxint := by
    rw [BitVec.le_def, hdigit, maxint_toNat]
    omega
  rw [BitVec.lt_def, BitVec.toNat_udiv, BitVec.toNat_sub_of_le hle, hdigit, hmult, hint, maxint_toNat]

/-- The loop reads the run of digits, or finds that its number is too large. -/
theorem digitLoop_eq (hb : b = 10 ∨ b = 16) (found : Bool) (hacc : acc ≤ 0x7FFFFFFF) :
    digitLoop (.ofNat 32 b) s (.ofNat 32 acc) found =
      match accumulate b 0x7FFFFFFF acc (digits (digitOf b) s) with
      | none => .overflow
      | some v => .stopped (behind (digitOf b) s) (.ofNat 32 v) (found || decide (digits (digitOf b) s ≠ [])) := by
  induction s generalizing acc found with
  | nil =>
    rw [digitLoop, digits, accumulate, decide_eq_false (fun h => h rfl), Bool.or_false]
    rfl
  | cons c ptr ih =>
    rw [digitLoop, digit_eq hb]
    cases hc : digitOf b c with
    | none =>
      rw [Numeral.digits_of_none hc, Numeral.behind_of_none hc, accumulate, decide_eq_false (fun h => h rfl), Bool.or_false]
      rfl
    | some d =>
      have hd := digitOf_lt hb hc
      rw [Numeral.digits_of_some hc, Numeral.behind_of_some hc, accumulate, decide_eq_true (List.cons_ne_nil _ _), Bool.or_true]
      show (if _ then _ else _) = _
      by_cases hover : (0x7FFFFFFF - d) / b < acc
      · rw [if_pos ((overflows_iff hb hd hacc).2 hover), if_pos hover]
      · have hfits : acc * b + d ≤ 0x7FFFFFFF := by
          rw [Numeral.div_lt_iff (by omega) (by omega)] at hover
          omega
        rw [if_neg (fun h => hover ((overflows_iff hb hd hacc).1 h)), if_neg hover, ← BitVec.ofNat_mul, ← BitVec.ofNat_add, ih true hfits]
        cases accumulate b 0x7FFFFFFF (acc * b + d) (digits (digitOf b) ptr) with
        | none => rfl
        | some v => rw [Bool.true_or]

/-- The number is within the limit, or an overflow is found. -/
theorem accumulate_digitsOf (s : List Byte) :
    accumulate (base s) 0x7FFFFFFF 0 (digitsOf s) = if valueOf s ≤ 0x7FFFFFFF then some (valueOf s) else none := by
  have hb := base_cases s
  refine Numeral.accumulate_eq (by omega) (fun d hd => ?_) (Nat.zero_le _)
  have hlt : d < base s := digits_lt hb d hd
  omega

/-- The parser, by the run of digits and its number. -/
theorem safeParseMaxint_eq (p : Parse) : safeParseMaxint p =
    if digitsOf p.strPtr = [] then (false, { p with errnum := .numberParsing })
    else if valueOf p.strPtr ≤ 0x7FFFFFFF then (true, ⟨behindNumber p.strPtr, .ofNat 32 (valueOf p.strPtr), p.errnum⟩)
    else (false, { p with errnum := .numberOverflow }) := by
  have hargs : (if isHex p.strPtr then (p.strPtr.drop 2, (16 : Word)) else (p.strPtr, 10)) =
      (unprefixed p.strPtr, BitVec.ofNat 32 (base p.strPtr)) := by
    unfold unprefixed base
    split <;> rfl
  have hloop : digitLoop (.ofNat 32 (base p.strPtr)) (unprefixed p.strPtr) 0 false =
      match accumulate (base p.strPtr) 0x7FFFFFFF 0 (digitsOf p.strPtr) with
      | none => .overflow
      | some v => .stopped (behindNumber p.strPtr) (.ofNat 32 v) (false || decide (digitsOf p.strPtr ≠ [])) :=
    digitLoop_eq (base_cases p.strPtr) false (Nat.zero_le 0x7FFFFFFF)
  unfold safeParseMaxint
  rw [hargs]
  dsimp only
  rw [hloop, accumulate_digitsOf, Bool.false_or]
  by_cases hnone : digitsOf p.strPtr = []
  · have hzero : valueOf p.strPtr = 0 := by
      rw [valueOf, hnone]
      rfl
    rw [if_pos hnone, hzero, if_pos (Nat.zero_le _), decide_eq_false (fun h => h hnone)]
    rfl
  · rw [if_neg hnone, decide_eq_true hnone]
    by_cases hle : valueOf p.strPtr ≤ 0x7FFFFFFF
    · rw [if_pos hle, if_pos hle]
      rfl
    · rw [if_neg hle, if_neg hle]

/-- The parser over the naturals does the same. -/
theorem parseDigits_eq (found : Bool) :
    parseDigits b s acc found =
      match accumulate b 0x7FFFFFFF acc (digits (digitOf b) s) with
      | none => .error .numberOverflow
      | some v => if found ∨ digits (digitOf b) s ≠ [] then .ok (v, behind (digitOf b) s) else .error .numberParsing := by
  induction s generalizing acc found with
  | nil =>
    rw [parseDigits]
    cases found <;> rfl
  | cons c ptr ih =>
    rw [parseDigits]
    cases hc : digitOf b c with
    | none =>
      rw [Numeral.digits_of_none hc, Numeral.behind_of_none hc]
      cases found <;> rfl
    | some d =>
      rw [Numeral.digits_of_some hc, Numeral.behind_of_some hc, accumulate]
      dsimp only
      by_cases hover : (0x7FFFFFFF - d) / b < acc
      · rw [if_pos hover, if_pos hover]
      · rw [if_neg hover, if_neg hover, ih true]
        cases accumulate b 0x7FFFFFFF (acc * b + d) (digits (digitOf b) ptr) with
        | none => rfl
        | some v => exact (if_pos (.inl rfl)).trans (if_pos (.inr (List.cons_ne_nil _ _))).symm

theorem isHex_cons (c : Byte) (s : List Byte) : isHex (0x30#8 :: c :: s) = decide (c = 0x78 ∨ c = 0x58) := by
  have hletter : ∀ c : Byte, (tolower (c.signExtend 32) = 0x78) ↔ c = 0x78 ∨ c = 0x58 := by decide +kernel
  rw [isHex]
  exact decide_eq_decide.2 ⟨fun h => (hletter c).1 h.2, fun h => ⟨rfl, (hletter c).2 h⟩⟩

theorem diskSafeParseMaxint_eq (s : List Byte) :
    Disk.safeParseMaxint s = parseDigits (base s) (unprefixed s) 0 false := by
  unfold Disk.safeParseMaxint base unprefixed
  split
  next c ptr =>
    rw [isHex_cons]
    by_cases hx : c = 0x78 ∨ c = 0x58
    · rw [if_pos hx, decide_eq_true hx]
      rfl
    · rw [if_neg hx, decide_eq_false hx]
      rfl
  next hother =>
    have hplain : isHex s = false := by
      cases s with
      | nil => rfl
      | cons c s =>
        cases s with
        | nil => rfl
        | cons c' s =>
          rw [isHex, decide_eq_false]
          rintro ⟨rfl, -⟩
          exact hother c' s rfl
    rw [hplain]
    rfl

/-- The parser over the naturals, which the readers of names and numbers use, is this one. -/
theorem safeParseMaxint_disk (p : Parse) : safeParseMaxint p =
    match Disk.safeParseMaxint p.strPtr with
    | .ok (n, rest) => (true, ⟨rest, .ofNat 32 n, p.errnum⟩)
    | .error e => (false, { p with errnum := e }) := by
  have hdigits : parseDigits (base p.strPtr) (unprefixed p.strPtr) 0 false =
      match accumulate (base p.strPtr) 0x7FFFFFFF 0 (digitsOf p.strPtr) with
      | none => .error .numberOverflow
      | some v => if false ∨ digitsOf p.strPtr ≠ [] then .ok (v, behindNumber p.strPtr) else .error .numberParsing :=
    parseDigits_eq false
  rw [safeParseMaxint_eq, diskSafeParseMaxint_eq, hdigits, accumulate_digitsOf]
  by_cases hnone : digitsOf p.strPtr = []
  · have hzero : valueOf p.strPtr = 0 := by
      rw [valueOf, hnone]
      rfl
    rw [if_pos hnone, hzero, if_pos (Nat.zero_le _)]
    dsimp only
    rw [if_neg (fun h => h.elim Bool.false_ne_true fun h => h hnone)]
  · rw [if_neg hnone]
    by_cases hle : valueOf p.strPtr ≤ 0x7FFFFFFF
    · rw [if_pos hle, if_pos hle]
      dsimp only
      rw [if_pos (.inr hnone)]
    · rw [if_neg hle, if_neg hle]

end Parsing

/-! ## Reading back what was written -/

section Writing
variable {b fuel n : Nat} {rest : List Byte}

/-- The character of a digit. -/
def shownDigit (d : Nat) : Byte := asciiDigit (.ofNat 32 d)

theorem digitOf_shown (hb : b = 10 ∨ b = 16) {d : Nat} (hd : d < b) : digitOf b (shownDigit d) = some d := by
  have hdecimal : ∀ d : Fin 10, digitOf 10 (shownDigit d) = some d.val := by decide
  have hhex : ∀ d : Fin 16, digitOf 16 (shownDigit d) = some d.val := by decide
  rcases hb with rfl | rfl
  · exact hdecimal ⟨d, hd⟩
  · exact hhex ⟨d, hd⟩

theorem asciiLoop_eq (hb : b = 10 ∨ b = 16) (hn : n < 2 ^ 32) :
    asciiLoop (.ofNat 32 b) fuel (.ofNat 32 n) = (written b fuel n).map shownDigit := by
  induction fuel generalizing n with
  | zero => rfl
  | succ fuel ih =>
    have hmod : BitVec.ofNat 32 n % BitVec.ofNat 32 b = BitVec.ofNat 32 (n % b) := by
      apply BitVec.eq_of_toNat_eq
      rw [BitVec.toNat_umod, BitVec.toNat_ofNat, BitVec.toNat_ofNat, BitVec.toNat_ofNat, Nat.mod_eq_of_lt hn,
        Nat.mod_eq_of_lt (show b < 2 ^ 32 by omega), Nat.mod_eq_of_lt (Nat.lt_of_le_of_lt (Nat.mod_le n b) hn)]
    have hless : n / b < 2 ^ 32 := Nat.lt_of_le_of_lt (Nat.div_le_self n b) hn
    have hdiv : BitVec.ofNat 32 n / BitVec.ofNat 32 b = BitVec.ofNat 32 (n / b) := by
      apply BitVec.eq_of_toNat_eq
      rw [BitVec.toNat_udiv, BitVec.toNat_ofNat, BitVec.toNat_ofNat, BitVec.toNat_ofNat, Nat.mod_eq_of_lt hn,
        Nat.mod_eq_of_lt (show b < 2 ^ 32 by omega), Nat.mod_eq_of_lt hless]
    have hzero : BitVec.ofNat 32 (n / b) = 0 ↔ n / b = 0 := by
      refine ⟨fun h => ?_, fun h => by rw [h]; rfl⟩
      have hvalue := congrArg BitVec.toNat h
      rwa [BitVec.toNat_ofNat, Nat.mod_eq_of_lt hless] at hvalue
    rw [asciiLoop, written, List.map_cons, hmod, hdiv]
    refine congrArg (shownDigit (n % b) :: ·) ?_
    by_cases hlast : n / b = 0
    · rw [if_pos (hzero.2 hlast), if_pos hlast]
      rfl
    · rw [if_neg (fun h => hlast (hzero.1 h)), if_neg hlast]
      exact ih hless

/-- The base that a conversion uses. -/
def baseOf (c : Byte) : Nat := if c = 0x78 ∨ c = 0x58 then 16 else 10

theorem baseOf_cases (c : Byte) : baseOf c = 10 ∨ baseOf c = 16 := by
  unfold baseOf
  split
  · exact .inr rfl
  · exact .inl rfl

/-- A number that an `int` holds is written without a sign. -/
theorem convertToAscii_eq (c : Byte) (hn : n ≤ 0x7FFFFFFF) :
    convertToAscii c (.ofNat 32 n) = (written (baseOf c) 32 n).reverse.map shownDigit := by
  have hsign : BitVec.ofNat 32 n &&& 0x80000000 = 0 := by
    have htop : (BitVec.ofNat 32 n).getLsbD 31 = false := by
      rw [BitVec.getLsbD_ofNat, Nat.testBit_lt_two_pow (by omega)]
      rfl
    rw [show (0x80000000 : Word) = BitVec.twoPow 32 31 by decide, BitVec.and_twoPow, htop]
    rfl
  have hmult : (if c = 0x78 ∨ c = 0x58 then (16 : Word) else 10) = BitVec.ofNat 32 (baseOf c) := by
    unfold baseOf
    split <;> rfl
  unfold convertToAscii
  rw [hmult]
  dsimp only
  rw [if_neg (fun h => h.1 hsign), asciiLoop_eq (baseOf_cases c) (by omega), List.map_reverse]

/-- The text of a number with something behind it that ends it. -/
theorem read_written (hb : b = 10 ∨ b = 16) (hn : n ≤ 0x7FFFFFFF) (hrest : ∀ c ∈ rest.head?, digitOf b c = none) :
    digits (digitOf b) ((written b 32 n).reverse.map shownDigit ++ rest) = (written b 32 n).reverse ∧
      behind (digitOf b) ((written b 32 n).reverse.map shownDigit ++ rest) = rest ∧
      value b (written b 32 n).reverse = n := by
  have hsmall : n < b ^ 32 := by
    have hbase : 10 ^ 32 ≤ b ^ 32 := Nat.pow_le_pow_left (by omega) 32
    omega
  have hshow : ∀ d ∈ (written b 32 n).reverse, digitOf b (shownDigit d) = some d := fun d hd =>
    digitOf_shown hb (Numeral.lt_of_mem_written (by omega) d (List.mem_reverse.1 hd))
  obtain ⟨hdigits, hbehind⟩ := Numeral.digits_append hshow hrest
  exact ⟨hdigits, hbehind, Numeral.value_written (by decide) hsmall⟩

/-- A decimal text does not look like a hex number. -/
theorem isHex_decimal {text : List Byte} (hne : text ≠ []) (htext : ∀ c ∈ text, digitOf 10 c ≠ none)
    (hrest : ∀ c ∈ rest.head?, c ≠ 0x78 ∧ c ≠ 0x58) : isHex (text ++ rest) = false := by
  have hletter : ∀ c : Byte, digitOf 10 c ≠ none → c ≠ 0x78 ∧ c ≠ 0x58 := by decide +kernel
  have hsecond : ∀ c c' : Byte, c' ≠ 0x78 ∧ c' ≠ 0x58 → ∀ s, isHex (c :: c' :: s) = false := by
    intro c c' hc s
    by_cases hzero : c = 0x30
    · rw [hzero]
      exact (isHex_cons c' s).trans (decide_eq_false fun h => h.elim hc.1 hc.2)
    · exact decide_eq_false fun h => hzero h.1
  cases text with
  | nil => exact absurd rfl hne
  | cons c text =>
    cases text with
    | nil =>
      cases rest with
      | nil => rfl
      | cons c' rest => exact hsecond c c' (hrest c' rfl) rest
    | cons c' text => exact hsecond c c' (hletter c' (htext c' (List.mem_cons_of_mem _ List.mem_cons_self))) _

/-- A string whose number has been written is read back. -/
theorem safeParseMaxint_read (hb : b = 10 ∨ b = 16) (hn : n ≤ 0x7FFFFFFF) (hrest : ∀ c ∈ rest.head?, digitOf b c = none)
    {str : List Byte} (hbase : base str = b) (htext : unprefixed str = (written b 32 n).reverse.map shownDigit ++ rest)
    (m : Word) (e : GrubError) : safeParseMaxint ⟨str, m, e⟩ = (true, ⟨rest, .ofNat 32 n, e⟩) := by
  obtain ⟨hdigits, hbehind, hvalue⟩ := read_written hb hn hrest
  have hrun : digitsOf str = (written b 32 n).reverse := by rw [digitsOf, hbase, htext, hdigits]
  have hsome : digitsOf str ≠ [] := by
    rw [hrun]
    exact List.reverse_ne_nil_iff.2 (Numeral.written_ne_nil (by decide))
  have hnumber : valueOf str = n := by rw [valueOf, hbase, hrun, hvalue]
  have hleft : behindNumber str = rest := by rw [behindNumber, hbase, htext, hbehind]
  rw [safeParseMaxint_eq]
  dsimp only
  rw [if_neg hsome, hnumber, if_pos hn, hleft]

/-- **Numbers.** A number is read exactly when there are digits and it is no larger than `MAXINT`; a failure
leaves the pointer and the result alone; and what `convert_to_ascii` writes is read back. -/
theorem safeParseMaxint_parses :
    (∀ p : Parse,
      ((safeParseMaxint p).1 = true ↔ digitsOf p.strPtr ≠ [] ∧ valueOf p.strPtr ≤ 0x7FFFFFFF) ∧
      ((safeParseMaxint p).1 = true → (safeParseMaxint p).2.myint.toNat = valueOf p.strPtr ∧
        (safeParseMaxint p).2.strPtr = behindNumber p.strPtr ∧ (safeParseMaxint p).2.errnum = p.errnum) ∧
      ((safeParseMaxint p).1 = false →
        (safeParseMaxint p).2 = { p with errnum := if digitsOf p.strPtr = [] then .numberParsing else .numberOverflow })) ∧
    (∀ (c : Byte) (n : Nat) (rest : List Byte) (m : Word) (e : GrubError), n ≤ 0x7FFFFFFF → baseOf c = 10 →
      (∀ d ∈ rest.head?, digitOf 10 d = none ∧ d ≠ 0x78 ∧ d ≠ 0x58) →
      safeParseMaxint ⟨convertToAscii c (.ofNat 32 n) ++ rest, m, e⟩ = (true, ⟨rest, .ofNat 32 n, e⟩)) ∧
    ∀ (x c : Byte) (n : Nat) (rest : List Byte) (m : Word) (e : GrubError), n ≤ 0x7FFFFFFF → baseOf c = 16 →
      x = 0x78 ∨ x = 0x58 → (∀ d ∈ rest.head?, digitOf 16 d = none) →
      safeParseMaxint ⟨0x30 :: x :: (convertToAscii c (.ofNat 32 n) ++ rest), m, e⟩ = (true, ⟨rest, .ofNat 32 n, e⟩) := by
  refine ⟨fun p => ?_, fun c n rest m e hn hbase hrest => ?_, fun x c n rest m e hn hbase hx hrest => ?_⟩
  · rw [safeParseMaxint_eq]
    by_cases hnone : digitsOf p.strPtr = []
    · rw [if_pos hnone, if_pos hnone]
      exact ⟨⟨fun h => absurd h Bool.false_ne_true, fun h => absurd hnone h.1⟩, fun h => absurd h Bool.false_ne_true, fun _ => rfl⟩
    · rw [if_neg hnone, if_neg hnone]
      by_cases hle : valueOf p.strPtr ≤ 0x7FFFFFFF
      · rw [if_pos hle]
        refine ⟨⟨fun _ => ⟨hnone, hle⟩, fun _ => rfl⟩, fun _ => ⟨?_, rfl, rfl⟩, fun h => absurd h Bool.noConfusion⟩
        show (BitVec.ofNat 32 (valueOf p.strPtr)).toNat = _
        rw [BitVec.toNat_ofNat]
        omega
      · rw [if_neg hle]
        exact ⟨⟨fun h => absurd h Bool.false_ne_true, fun h => absurd h.2 hle⟩, fun h => absurd h Bool.false_ne_true, fun _ => rfl⟩
  · rw [convertToAscii_eq c hn, hbase]
    have hshown : ∀ d ∈ (written 10 32 n).reverse.map shownDigit, digitOf 10 d ≠ none := by
      intro d hd
      obtain ⟨k, hk, rfl⟩ := List.mem_map.1 hd
      rw [digitOf_shown (.inl rfl) (Numeral.lt_of_mem_written (by decide) k (List.mem_reverse.1 hk))]
      exact Option.some_ne_none k
    have hwritten : (written 10 32 n).reverse.map shownDigit ≠ [] :=
      fun h => Numeral.written_ne_nil (by decide) (List.reverse_eq_nil_iff.1 (List.map_eq_nil_iff.1 h))
    have hplain := isHex_decimal hwritten hshown fun d hd => (hrest d hd).2
    apply safeParseMaxint_read (.inl rfl) hn (fun d hd => (hrest d hd).1)
    · rw [base, hplain]
      rfl
    · rw [unprefixed, hplain]
      rfl
  · rw [convertToAscii_eq c hn, hbase]
    have hhex : isHex (0x30#8 :: x :: ((written 16 32 n).reverse.map shownDigit ++ rest)) = true :=
      (isHex_cons x _).trans (decide_eq_true hx)
    apply safeParseMaxint_read (.inr rfl) hn hrest
    · rw [base]
      exact if_pos hhex
    · rw [unprefixed]
      exact if_pos hhex

end Writing

end TrustedGrub.CharIo
