import TrustedGrub.CharIo.Memcheck
import TrustedGrub.Lib.Memory

/-!
# Escape sequences in terminal capabilities

`ti_escape_memory` and `ti_unescape_memory` of `terminfo.c`. A pointer into the input is the
list of the bytes from there on, to the end of the memory; to read past that gives nothing.
-/

namespace TrustedGrub.Terminfo
open Fips180 (Byte)
open CharIo (Word)

def strlen : List Byte → Option Nat
  | [] => none
  | c :: s => if c = 0 then some 0 else (strlen s).map (· + 1)

theorem strlen_append {s : List Byte} (h : 0 ∉ s) (after : List Byte) : strlen (s ++ 0 :: after) = some s.length := by
  induction s with
  | nil => rfl
  | cons c s ih =>
    rw [List.mem_cons, not_or] at h
    obtain ⟨hc, hs⟩ := h
    rw [List.cons_append, strlen, if_neg fun hzero => hc hzero.symm, ih hs]
    rfl

/-- There is no NUL up to the end of the memory. -/
theorem strlen_none {s : List Byte} (h : 0 ∉ s) : strlen s = none := by
  induction s with
  | nil => rfl
  | cons c s ih =>
    rw [List.mem_cons, not_or] at h
    rw [strlen, if_neg fun hzero => h.1 hzero.symm, ih h.2]
    rfl

/-! ## Escape -/

/-- The characters that stand for themselves. -/
def isPlain (c : Byte) : Bool :=
  decide (0x30 ≤ c ∧ c ≤ 0x39) || decide (0x61 ≤ c ∧ c ≤ 0x7A) || decide (0x41 ≤ c ∧ c ≤ 0x5A) ||
    ([0x25, 0x2B, 0x2D, 0x2A, 0x2F, 0x3B, 0x3A, 0x7B, 0x7D, 0x5B, 0x5D] : List Byte).contains c

/-- `((c >> k) & 7) + '0'`. The character is signed. -/
def octalDigit (c : Byte) (k : Nat) : Byte := (((c.signExtend 32).sshiftRight k &&& 7) + 0x30).setWidth 8

/-- What the loop writes for `c`. -/
def escaped (c : Byte) : List Byte :=
  if c = 0x1B then [0x5C, 0x65]
  else if c = 0x20 then [0x5C, 0x73]
  else if c = 0x5C then [0x5C, 0x5C]
  else if isPlain c then [c]
  else if c ≤ 25 then [0x5E, 0x41 + c]
  else [0x5C, octalDigit c 8, octalDigit c 4, octalDigit c 0]

/-- `ti_escape_memory`, where `last` bytes are left from `end` on. The loop looks at its condition after the first byte. -/
def escapeMemory (last : Nat) : List Byte → Option (List Byte)
  | [] => none
  | c :: input => if last < input.length then (escapeMemory last input).map (escaped c ++ ·) else some (escaped c ++ [0])

def escapeString (input : List Byte) : Option (List Byte) :=
  (strlen input).bind fun n => escapeMemory (input.length - n) input

/-! ## Unescape -/

/-- The input from `in` on, `out`, the static buffer, and how far it has been written. -/
structure Decoder where
  input : List Byte
  out : Nat
  outBuffer : Nat → Byte
  written : Nat

def isDigit (c : Byte) : Bool := 0x30 ≤ c ∧ c ≤ 0x39

/-- `(n << 4) | (c - '0')`. -/
def addDigit (n : Word) (c : Byte) : Word := n <<< (4 : Nat) ||| (c - 0x30).setWidth 32

/-- Digits, as far as there are any. The character behind them is read again. -/
def octal (n : Word) (c : Byte) : List Byte → Option (Word × List Byte)
  | [] => none
  | next :: input => if isDigit next then octal (addDigit n c) next input else some (addDigit n c, next :: input)

/-- The letters behind a backslash. -/
def letters : List (Byte × Byte) :=
  [(0x65, 0x1B), (0x45, 0x1B), (0x6E, 10), (0x72, 13), (0x74, 9), (0x62, 8), (0x66, 12), (0x73, 0x20), (0x5C, 0x5C), (0x5E, 0x5E),
    (0x2C, 0x2C), (0x3A, 0x3A), (0x30, 0x80)]

namespace Decoder

/-- `*out = c`. -/
def poke (d : Decoder) (c : Byte) : Decoder :=
  { d with outBuffer := fun k => if k = d.out then c else d.outBuffer k, written := max d.written (d.out + 1) }

/-- `*out++ = c`. -/
def put (d : Decoder) (c : Byte) : Decoder := { d.poke c with out := d.out + 1 }

def skip (d : Decoder) (input : List Byte) : Decoder := { d with input := input }

@[simp] theorem poke_input (d : Decoder) (c : Byte) : (d.poke c).input = d.input := rfl

@[simp] theorem put_input (d : Decoder) (c : Byte) : (d.put c).input = d.input := rfl

@[simp] theorem skip_input (d : Decoder) (input : List Byte) : (d.skip input).input = input := rfl

/-- The body of the loop. A control character is written, but `out` is left where it is. -/
def turn (d : Decoder) : Option Decoder :=
  match d.input with
  | [] => none
  | c :: input =>
    if c = 0x5E then
      match input with
      | [] => none
      | x :: rest => if 0x41 ≤ x ∧ x ≤ 0x5A then some ((d.skip rest).poke (x - 0x41)) else some ((d.skip input).poke 0x5E)
    else if c = 0x5C then
      match input with
      | [] => none
      | c :: rest =>
        if isDigit c then (octal 0 c rest).map fun r => (d.skip r.2).put (r.1.setWidth 8)
        else
          match letters.find? (fun code => code.1 = c) with
          | some code => some ((d.skip rest).put code.2)
          | none => some (d.skip rest)
    else some ((d.skip input).put c)

end Decoder

theorem octal_shorter {n : Word} {c : Byte} {input : List Byte} {r : Word × List Byte} (h : octal n c input = some r) :
    r.2.length ≤ input.length := by
  induction input generalizing n c with
  | nil => cases h
  | cons next input ih =>
    unfold octal at h
    split at h
    · exact (ih h).trans (Nat.le_succ _)
    · cases h
      exact Nat.le_refl _

theorem Decoder.turn_shorter {d d' : Decoder} (h : d.turn = some d') : d'.input.length < d.input.length := by
  unfold Decoder.turn at h
  cases hinput : d.input with
  | nil =>
    rw [hinput] at h
    cases h
  | cons c input =>
    rw [hinput] at h
    dsimp only at h
    split at h
    · cases input with
      | nil => cases h
      | cons x rest =>
        dsimp only at h
        split at h
        · cases h
          simp only [poke_input, skip_input, List.length_cons]
          omega
        · cases h
          simp only [poke_input, skip_input, List.length_cons]
          omega
    · split at h
      · cases input with
        | nil => cases h
        | cons c rest =>
          dsimp only at h
          split at h
          · obtain ⟨r, hr, rfl⟩ := Option.map_eq_some_iff.1 h
            have hshort := octal_shorter hr
            simp only [put_input, skip_input, List.length_cons]
            omega
          · split at h
            · cases h
              simp only [put_input, skip_input, List.length_cons]
              omega
            · cases h
              simp only [skip_input, List.length_cons]
              omega
      · cases h
        simp only [put_input, skip_input, List.length_cons]
        omega

/-- The loop, where `last` bytes are left from `end` on. The byte at `end` is read as well. -/
def Decoder.run (last : Nat) (d : Decoder) : Option Decoder :=
  match _h : d.turn with
  | none => none
  | some d' => if last ≤ d'.input.length then d'.run last else some d'
termination_by d.input.length
decreasing_by exact Decoder.turn_shorter _h

/-- `ti_unescape_memory`. -/
def unescapeMemory (outBuffer : Nat → Byte) (last : Nat) (input : List Byte) : Option Decoder :=
  Decoder.run last ⟨input, 0, outBuffer, 0⟩

/-- `ti_unescape_string`. -/
def unescapeString (outBuffer : Nat → Byte) (input : List Byte) : Option Decoder :=
  (strlen input).bind fun n => unescapeMemory outBuffer (input.length - n) input

end TrustedGrub.Terminfo
