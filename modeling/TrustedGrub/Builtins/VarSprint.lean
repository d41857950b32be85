import TrustedGrub.Builtins.Variables
import TrustedGrub.Lib.Packed

/-!
# Expansion of variables

`var_sprint` puts the values of variables in the place of the references `$(name)` of a string, in up to
ten passes. Each pass copies the string from `buffer`, an array on the stack, to the array of the caller. An
array is a list of its cells, and nothing is done outside of it: there the run has no answer.
-/

namespace TrustedGrub.Builtins
open Fips180 (Byte)

/-- The size of `buffer`. -/
def bufferSize : Nat := 1000

/-- The size of `dump`, where `run_script` expands a line. -/
def dumpSize : Nat := 700

/-- The size of `var_sprint_buffer`. -/
def varSprintBufferSize : Nat := 1500

/-- The bytes of `var_sprint_magic`. -/
def varSprintMagic : List Byte := [0x41, 0x32, 0x23, 0x14]

/-- The string at an index of an array. -/
def cstr (a : List Byte) (i : Nat) : List Byte := Packed.text 0 (a.drop i)

def put (a : List Byte) (i : Nat) (c : Byte) : Option (List Byte) := if i < a.length then some (a.set i c) else none

/-- The bytes, one after the other. -/
def puts : List Byte → Nat → List Byte → Option (List Byte)
  | a, _, [] => some a
  | a, i, c :: t => (put a i c).bind fun a => puts a (i + 1) t

def strcpy (a t : List Byte) : Option (List Byte) := puts a 0 (t ++ [0])

/-- The first `)` or terminator from `c` on. -/
def endVar (str : List Byte) (c : Nat) : Nat := c + ((str.drop c).takeWhile fun x => x ≠ 0 ∧ x ≠ 0x29).length

/-- The loop of `var_sprint_once`, and both arrays behind it. -/
def sprintLoop (s : Vars) : Nat → List Byte → Nat → List Byte → Nat → Option (List Byte × List Byte)
  | 0, _, _, _, _ => none
  | n + 1, buf, b, buffer, str =>
    buffer[str]?.bind fun c =>
    if c = 0 then (put buf b 0).map fun buf => (buf, buffer)
    else if c = 0x24 ∧ buffer[str + 1]? = some 0x28 ∧ buffer[endVar buffer (str + 2)]? = some 0x29 then
      let endv := endVar buffer (str + 2)
      -- The `)` is a terminator while the name is looked up.
      let named := buffer.set endv 0
      match s.get (cstr named (str + 2)) with
      | some val => (puts buf b val).bind fun buf => sprintLoop s n buf (b + val.length) (named.set endv 0x29) (endv + 1)
      | none =>
        -- The reference has been passed already, and the character behind it is copied.
        (named.set endv 0x29)[endv + 1]?.bind fun c =>
        (put buf b c).bind fun buf => sprintLoop s n buf (b + 1) (named.set endv 0x29) (endv + 2)
    else (put buf b c).bind fun buf => sprintLoop s n buf (b + 1) buffer (str + 1)

/-- `var_sprint_once`, where each pass of the loop goes on in `str`. -/
def varSprintOnce (s : Vars) (buf str : List Byte) : Option (List Byte × List Byte) := sprintLoop s (str.length + 1) buf 0 str 0

inductive Sprinted
  /-- An array is left. -/
  | outside
  /-- A message, and a loop without an end. -/
  | endless
  /-- The function returns, and has reported a possible loop or not. -/
  | done (buf : List Byte) (loop : Bool)
deriving DecidableEq

/-- The passes of `var_sprint` that are left. -/
def sprintPasses (s : Vars) : Nat → List Byte → List Byte → Sprinted
  | 0, buf, _ => .done buf true
  | i + 1, buf, buffer =>
    if bufferSize < (cstr buf 0).length then .endless
    else
      match (strcpy buffer (cstr buf 0)).bind (varSprintOnce s buf) with
      | none => .outside
      | some (buf, buffer) => if i ≠ 0 ∧ cstr buf 0 = cstr buffer 0 then .done buf false else sprintPasses s i buf buffer

/-- `var_sprint`, with what is in `buf` and in `buffer` before it. -/
def varSprint (s : Vars) (buf buffer str : List Byte) : Sprinted :=
  match strcpy buf str with
  | none => .outside
  | some buf => sprintPasses s 10 buf buffer

/-- `var_sprint_buf`, with what is in `var_sprint_buffer` and in `buffer` before it. -/
def varSprintBuf (s : Vars) (varSprintBuffer buffer str : List Byte) : Sprinted :=
  match varSprint s (varSprintBuffer.take (varSprintBufferSize - 4) ++ varSprintMagic) buffer str with
  | .done buf loop => if buf.drop (varSprintBufferSize - 4) = varSprintMagic then .done buf loop else .endless
  | ended => ended

end TrustedGrub.Builtins
