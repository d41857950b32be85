import TrustedGrub.Line.Keys

/-!
# `get_cmdline`

The two ways to read a line. A terminal that cannot edit gets a loop that stores every printable character; all others get the
editor. Both store from `cmdline` on, where the caller has `maxlen` bytes.
-/

namespace TrustedGrub.Line
open Fips180 (Byte)
open StringPool (Holds)

/-! ## The two ways -/

/-- The memory from `cmdline` on, while keys are read and when `get_cmdline` returns. -/
inductive Input where
  | reading (cmdline : Nat → Byte)
  | returned (ret : Nat) (cmdline : Nat → Byte)

def newline (c : Byte) : Bool := c = 0x0A ∨ c = 0x0D

def printable (c : Byte) : Bool := 0x20 ≤ c.toNat ∧ c.toNat ≤ 0x7E

/-- Gather characters until a newline is gotten. The pointer is `cmdline + p`. -/
def gather (cmdline : Nat → Byte) (p : Nat) : List Key → Input
  | [] => .reading cmdline
  | k :: ks =>
    if newline k.c then .returned 0 (Memory.store cmdline p [0])
    else if k.c = 27 then .returned 1 cmdline
    else if printable k.c then
      -- preceding space characters must be ignored
      if k.c ≠ 0x20 ∨ p ≠ 0 then gather (Memory.store cmdline p [k.c]) (p + 1) ks else gather cmdline p ks
    else gather cmdline p ks

def Outcome.input : Outcome → Input
  | .editing s => .reading s.cmdline
  | .returned ret s => .returned ret s.cmdline

/-- The arguments of `get_cmdline`, but for the line, and the globals that it reads. -/
structure Call where
  prompt : List Byte
  maxlen : Int
  echoChar : Byte
  readline : Bool
  /-- `errnum` is set. -/
  pending : Bool
  numHistory : Nat

/-- The editor before the first key, for what is in its buffers. -/
def Call.start (a : Call) (mem cmdline : Nat → Byte) : State :=
  Line.start a.prompt cmdline a.maxlen a.echoChar a.readline a.pending mem a.numHistory

/-- The keys up to the one that returns. -/
def pressed (ks : List Key) : List Byte := (ks.map Key.c).takeWhile fun c => !newline c && c ≠ 27

/-- The characters that a line without an editor consists of. -/
def gathered (ks : List Key) : List Byte := ((pressed ks).filter printable).dropWhile fun c => c = 0x20

/-- The key that returns. -/
def lastKey (ks : List Key) : Option Byte := ((ks.map Key.c).dropWhile fun c => !newline c && c ≠ 27).head?

/-- The bytes that are stored: the characters, and their end. -/
def stored (ks : List Key) : List Byte := gathered ks ++ if (lastKey ks).any newline then [0] else []

/-- The line without its leading spaces, unless it is echoed otherwise. -/
def entered (echoChar : Byte) (text : List Byte) : List Byte := if echoChar = 0 then text.dropWhile fun c => c = 0x20 else text

/-- The characters of the line that an editor enters. -/
def Editor.Outcome.line : Editor.Outcome → List Byte
  | .entered line _ => line
  | _ => []

/-- Nothing is stored behind the first `maxlen` bytes, and a line that is returned is the string of the characters accepted. -/
def Input.Fine (maxlen : Int) (before : Nat → Byte) (line : List Byte) : Input → Prop
  | .reading after => ∀ x : Nat, maxlen ≤ x → after x = before x
  | .returned ret after => (∀ x : Nat, maxlen ≤ x → after x = before x) ∧ (ret = 0 → Holds 0 after 0 line)

/-- Nothing is stored behind the first `maxlen` bytes, and a line that is returned is a string that fits into them. -/
def Input.Within (maxlen : Int) (before : Nat → Byte) : Input → Prop
  | .reading after => ∀ x : Nat, maxlen ≤ x → after x = before x
  | .returned ret after =>
    (∀ x : Nat, maxlen ≤ x → after x = before x) ∧ (ret = 0 → ∃ line, Holds 0 after 0 line ∧ (line.length : Int) < maxlen)

/-- The memory from `cmdline` on. -/
def Input.cmdline : Input → Nat → Byte
  | .reading after => after
  | .returned _ after => after

theorem Input.Fine.outside {i : Input} {maxlen : Int} {before : Nat → Byte} {line : List Byte} (h : i.Fine maxlen before line) {x : Nat}
    (hx : maxlen ≤ x) :
    i.cmdline x = before x := by
  cases i with
  | reading after => exact h x hx
  | returned ret after => exact h.1 x hx

/-! ## Without an editor -/

section Gather
variable {k : Key} {ks : List Key}

/-- The key returns. -/
def returns (c : Byte) : Bool := newline c || c = 27

end Gather

end TrustedGrub.Line
