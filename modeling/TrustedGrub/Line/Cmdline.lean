import TrustedGrub.CharIo.Memmove
import TrustedGrub.Sha1.Fips180
import Mathlib.Algebra.Group.Nat.Defs

/-!
# The line editor

`real_get_cmdline` with its buffers, which lie one behind the other in memory: the line, the kill buffer, the
history and the completion. Addresses count from `CMDLINE_BUF`. What is printed is left out, not where the cursor is.
Nothing is copied while an error is pending, which TAB alone clears.
-/

namespace TrustedGrub.Line
open Fips180 (Byte)
open Memory (slice store)
open CharIo (grubMemmove)
open StringPool (read)

def maxCmdline : Nat := 1600
def historySize : Nat := 5
def cmdlineWidth : Nat := 78
def cmdlineMargin : Nat := 10

def cmdlineBuf : Nat := 0
def killBuf : Nat := cmdlineBuf + maxCmdline
def historyBuf : Nat := killBuf + maxCmdline
def completionBuf : Nat := historyBuf + maxCmdline * historySize

theorem historyBuf_eq : historyBuf = cmdlineBuf + maxCmdline + maxCmdline := rfl

theorem completionBuf_eq : completionBuf = cmdlineBuf + maxCmdline + maxCmdline + maxCmdline * historySize := rfl

/-- No string is as long. -/
def addressSpace : Nat := 2 ^ 32

def str (m : Nat → Byte) (p : Nat) : List Byte := read 0 m addressSpace p

/-- The arguments and the variables of `real_get_cmdline`. -/
structure State where
  /-- `errnum` is set. -/
  pending : Bool
  mem : Nat → Byte
  /-- The memory from `cmdline` on. -/
  cmdline : Nat → Byte
  numHistory : Nat
  maxlen : Int
  echoChar : Byte
  readline : Bool
  plen : Nat
  llen : Nat
  lpos : Nat
  history : Int
  xpos : Int
  sectionNo : Nat

namespace State

/-- The string in `buf`. -/
def buf (s : State) : List Byte := str s.mem cmdlineBuf

/-- `grub_memmove` within the buffers. -/
def moved (s : State) (dst src n : Nat) : Nat → Byte := grubMemmove s.pending s.mem dst src n

/-- `grub_memmove` and `grub_strcpy` of bytes that lie elsewhere. -/
def copied (s : State) (m : Nat → Byte) (dst : Nat) (bytes : List Byte) : Nat → Byte := if s.pending then m else store m dst bytes

/-! ## The cursor -/

/-- `cl_refresh` -/
def clRefresh (s : State) (full : Bool) : State :=
  let sectionNo :=
    if full then
      if s.lpos + s.plen < cmdlineWidth then 0 else (s.lpos + s.plen - cmdlineWidth) / (cmdlineWidth - 1 - cmdlineMargin) + 1
    else s.sectionNo
  let start : Int := (sectionNo - 1 : Int) * (cmdlineWidth - 1 - cmdlineMargin : Nat) + cmdlineWidth - s.plen - cmdlineMargin
  { s with sectionNo, xpos := if sectionNo = 0 then s.lpos + s.plen else s.lpos + 1 - start }

/-- `cl_backward` -/
def clBackward (s : State) (count : Nat) : State :=
  let s : State := { s with lpos := s.lpos - count }
  if s.sectionNo = 1 ∧ s.plen + s.lpos < cmdlineWidth then s.clRefresh true
  else if s.xpos - count < 1 then s.clRefresh true
  else { s with xpos := s.xpos - count }

/-- `cl_forward` -/
def clForward (s : State) (count : Nat) : State :=
  let s : State := { s with lpos := s.lpos + count }
  if s.xpos + count ≥ cmdlineWidth then s.clRefresh true else { s with xpos := s.xpos + count }

/-- `cl_init` -/
def clInit (s : State) : State := s.clRefresh true

/-! ## Characters -/

/-- `cl_insert` -/
def clInsert (s : State) (t : List Byte) : State :=
  let l := t.length
  if (s.llen + l : Int) < s.maxlen then
    let mem :=
      if s.lpos = s.llen then s.copied s.mem (cmdlineBuf + s.lpos) (t ++ [0])
      else s.copied (s.moved (cmdlineBuf + s.lpos + l) (cmdlineBuf + s.lpos) (s.llen - s.lpos + 1)) (cmdlineBuf + s.lpos) t
    let s : State := { s with mem, llen := s.llen + l, lpos := s.lpos + l }
    s.clRefresh (s.xpos + l ≥ cmdlineWidth)
  else s

/-- `cl_delete` -/
def clDelete (s : State) (count : Nat) : State :=
  let mem := s.moved (cmdlineBuf + s.lpos) (cmdlineBuf + s.lpos + count) (s.llen - count + 1)
  let s : State := { s with mem, llen := s.llen - count }
  s.clRefresh false

/-- C-u -/
def killBackward (s : State) : State :=
  if s.lpos = 0 then s
  else
    let count := s.lpos
    let s : State := { s with mem := store (s.moved killBuf cmdlineBuf count) (killBuf + count) [0] }
    (s.clBackward count).clDelete count

/-- C-k -/
def killForward (s : State) : State :=
  if s.lpos = s.llen then s
  else
    let s : State := { s with mem := s.moved killBuf (cmdlineBuf + s.lpos) (s.llen - s.lpos + 1) }
    s.clDelete (s.llen - s.lpos)

/-! ## The history -/

/-- `get_history` -/
def getHistory (s : State) (no : Int) : Option (List Byte) :=
  if no < 0 ∨ s.numHistory ≤ no then none else some (str s.mem (historyBuf + maxCmdline * no.toNat))

/-- `add_history` -/
def addHistory (s : State) (line : List Byte) (no : Nat) : State :=
  let mem := s.moved (historyBuf + maxCmdline * (no + 1)) (historyBuf + maxCmdline * no) (maxCmdline * (s.numHistory - no))
  { s with
    mem := s.copied mem (historyBuf + maxCmdline * no) (line ++ [0])
    numHistory := if s.numHistory < historySize then s.numHistory + 1 else s.numHistory }

/-- A line takes the place of the one in `buf`. -/
def fetch (s : State) (p : List Byte) : State :=
  let s : State := { s with mem := s.copied s.mem cmdlineBuf (p ++ [0]) }
  let s : State := { s with llen := s.buf.length, lpos := s.buf.length }
  s.clRefresh true

/-- If `buf` is modified, add it into the history list. -/
def keepModified (s : State) : State := if s.getHistory s.history ≠ some s.buf then s.addHistory s.buf s.history.toNat else s

/-- C-p -/
def previous (s : State) : State :=
  let s := if s.history < 0 then { s with cmdline := s.copied s.cmdline 0 (s.buf ++ [0]) } else s.keepModified
  match s.getHistory (s.history + 1) with
  | none => s
  | some p => { s with history := s.history + 1 }.fetch p

/-- C-n -/
def next (s : State) : State :=
  if s.history < 0 then s
  else
    let s := s.keepModified
    let s : State := { s with history := s.history - 1 }
    s.fetch ((s.getHistory s.history).getD (str s.cmdline 0))

end State

/-! ## Completion -/

/-- The first space after a command. -/
def commandEnd (buf : List Byte) : Nat :=
  let pos := (buf.takeWhile fun c => c = 0x20).length
  pos + ((buf.drop pos).takeWhile fun c => c ≠ 0x3D ∧ c ≠ 0x20).length

/-- The equal character after a command. -/
def equalPos (buf : List Byte) (pos : Nat) : Option Nat :=
  (((buf.drop pos).takeWhile fun c => c ≠ 0x20).findIdx? fun c => c = 0x3D).map fun i => pos + i

/-- The first character of the word before the cursor. -/
def wordStart (m : Nat → Byte) : Nat → Nat
  | 0 => 0
  | i + 1 => if m (cmdlineBuf + i) = 0x20 then i + 1 else wordStart m i

/-- What `print_completions` comes to: its value, and the string that it leaves in `COMPLETION_BUF`. -/
structure Completion where
  ret : Int
  buffer : List Byte

/-- `print_completions`, when the key is pressed: for whether it is a filename, and for the word. -/
abbrev Completions := Bool → List Byte → Completion

namespace State

/-- The equal character after the command becomes another one. -/
def putEqual (s : State) (equal : Option Nat) (c : Byte) : State :=
  { s with mem := equal.elim s.mem fun i => store s.mem (cmdlineBuf + i) [c] }

/-- The word from `i` on is copied to the completion buffer. -/
def copyWord (s : State) (i : Nat) : State :=
  { s with mem := store (s.moved completionBuf (cmdlineBuf + i) (s.lpos - i)) (completionBuf + (s.lpos - i)) [0] }

/-- The completion buffer is filled, and if there is a completion, what is behind the word is put in. -/
def putCompletion (s : State) (i : Nat) (c : Completion) : State :=
  let s : State := { s with mem := store s.mem completionBuf (c.buffer ++ [0]) }
  if c.ret ≥ 0 then s.clInsert (str s.mem (completionBuf + (s.lpos - i))) else s

/-- TAB, which clears `errnum` behind `print_completions`. -/
def complete (s : State) (completions : Completions) : State :=
  let pos := commandEnd s.buf
  let isFilename := decide (pos < s.lpos)
  let equal := equalPos s.buf pos
  let s := s.putEqual equal 0x20
  let i := wordStart s.mem s.lpos
  let s := s.copyWord i
  let c := completions isFilename (str s.mem completionBuf)
  let s : State := { s with pending := false }
  let s := (s.putCompletion i c).putEqual equal 0x3D
  if c.ret ≠ 0 then s.clInit else s

end State

/-! ## Keys -/

/-- A key, and the completions there are when it is pressed. -/
structure Key where
  c : Byte
  completions : Completions

inductive Outcome where
  | editing (s : State)
  | returned (ret : Nat) (s : State)

namespace State

/-- The readline-like key bindings. -/
def readlineKey (s : State) (k : Key) : State :=
  match k.c.toNat with
  | 9 => s.complete k.completions
  | 1 => s.clBackward s.lpos
  | 5 => s.clForward (s.llen - s.lpos)
  | 6 => if s.lpos < s.llen then s.clForward 1 else s
  | 2 => if 0 < s.lpos then s.clBackward 1 else s
  | 21 => s.killBackward
  | 11 => s.killForward
  | 25 => s.clInsert (str s.mem killBuf)
  | 16 => s.previous
  | 14 => s.next
  | _ => s

/-- The end of a line that is entered. -/
def finish (s : State) : State :=
  let lpos := if s.echoChar = 0 then (s.buf.takeWhile fun c => c = 0x20).length else 0
  let s : State := { s with lpos, cmdline := s.copied s.cmdline 0 (slice s.mem (cmdlineBuf + lpos) (s.llen - lpos + 1)) }
  if s.readline ∧ s.lpos < s.llen then s.addHistory (str s.cmdline 0) 0 else s

/-- A key of the loop. -/
def key (s : State) (k : Key) : Outcome :=
  if k.c.toNat = 10 ∨ k.c.toNat = 13 then .returned 0 s.finish
  else
    let s := if s.readline then s.readlineKey k else s
    match k.c.toNat with
    | 27 => .returned 1 s
    | 4 => .editing (if s.lpos = s.llen then s else s.clDelete 1)
    | 8 => .editing (if 0 < s.lpos then (s.clBackward 1).clDelete 1 else s)
    | c => .editing (if 0x20 ≤ c ∧ c ≤ 0x7E then s.clInsert [k.c] else s)

/-- The keys, up to the one that returns. -/
def keys (s : State) : List Key → Outcome
  | [] => .editing s
  | k :: ks =>
    match s.key k with
    | .editing s => s.keys ks
    | .returned ret s => .returned ret s

end State

/-- What there is before the first key. -/
def start (prompt : List Byte) (cmdline : Nat → Byte) (maxlen : Int) (echoChar : Byte) (readline pending : Bool) (mem : Nat → Byte)
    (numHistory : Nat) : State :=
  let llen := (str cmdline 0).length
  let long := (maxCmdline : Int) < maxlen ∧ maxCmdline ≤ llen
  let cmdline := if long then store cmdline maxCmdline [0] else cmdline
  let llen := if long then maxCmdline - 1 else llen
  let s : State :=
    { pending
      mem := if pending then mem else store mem cmdlineBuf (str cmdline 0 ++ [0])
      cmdline, numHistory
      maxlen := min maxlen maxCmdline
      echoChar, readline
      plen := prompt.length
      llen
      lpos := llen
      history := -1
      xpos := 0
      sectionNo := 0 }
  s.clInit

end TrustedGrub.Line
