import TrustedGrub.Line.Cmdline
import Mathlib.Logic.Function.Basic

/-!
# What the line editor draws

The terminal under `real_get_cmdline`, and what each function and each key puts on it. The states are those of
the line editor. Rows have no end downwards, and what is below the cursor may be anything.
-/

namespace TrustedGrub.Line
open Fips180 (Byte)

/-- The terminal. -/
structure Screen where
  cells : Nat → Nat → Byte
  y : Nat
  x : Nat
  /-- The indexes of `buf` that have been read to draw the line, each with what `llen` was then. -/
  reads : List (Int × Nat)

namespace Screen

/-- The end of a row, and the next one. -/
def newline (t : Screen) : Screen := { t with y := t.y + 1, x := 0 }

/-- A character that is written at the cursor, by `console_putchar`. -/
def write (t : Screen) (c : Byte) : Screen :=
  let t := if 79 ≤ t.x then t.newline else t
  { t with cells := Function.update t.cells t.y (Memory.store (t.cells t.y) t.x [c]), x := t.x + 1 }

/-- `grub_putchar` -/
def putchar (t : Screen) (c : Byte) : Screen :=
  match c.toNat with
  | 7 => t
  | 8 => { t with x := t.x - 1 }
  | 9 => (List.replicate (8 - t.x % 4) 0x20).foldl write t
  | 10 => t.newline
  | 13 => { t with x := 0 }
  | _ => t.write c

def puts (t : Screen) (l : List Byte) : Screen := l.foldl putchar t

def gotoxy (t : Screen) (x : Nat) : Screen := { t with x }

end Screen

namespace State

/-- A character as it is shown. -/
def shown (s : State) (c : Byte) : Byte := if s.echoChar = 0 then c else s.echoChar

/-- The characters of `buf` from an index on. -/
def shownFrom (s : State) (i : Int) (n : Nat) : List Byte :=
  (List.range n).map fun (k : Nat) => s.shown (s.mem (cmdlineBuf + (i + k).toNat))

/-- The index of `buf` where the section starts. -/
def windowStart (s : State) : Int :=
  if s.sectionNo = 0 then 0 else (s.sectionNo - 1 : Int) * (cmdlineWidth - 1 - cmdlineMargin : Nat) + cmdlineWidth - s.plen - cmdlineMargin

/-- The column where the section starts. -/
def first (s : State) : Nat := if s.sectionNo = 0 then s.plen else 1

end State

namespace Screen
variable (prompt : List Byte) (dumb : Bool)

/-- Characters of `buf` are put. -/
def putBuf (t : Screen) (s : State) (i : Int) (n : Nat) : Screen :=
  { t.puts (s.shownFrom i n) with reads := (List.range n).map (fun (k : Nat) => (i + k, s.llen)) ++ t.reads }

/-- The rest of `cl_refresh`, from `pos` on: the section number and `xpos` are new, `start` and `len` say what is drawn. -/
def draw (t : Screen) (s : State) (pos : Int) (start : Int) (len : Nat) : Screen :=
  let n := min len (s.llen - start).toNat
  let t := (t.putBuf s start n).puts (List.replicate (len - n) 0x20)
  let pos := pos + len
  let t := if pos = cmdlineWidth then t.putchar (if start + len < s.llen then 0x3E else 0x20) else t
  let pos := if pos = cmdlineWidth then pos + 1 else pos
  if dumb then t.puts (List.replicate (pos - s.xpos).toNat 8) else t.gotoxy s.xpos.toNat

/-- The full line is drawn, in the section that it is in. -/
def redraw (t : Screen) (s : State) : Screen :=
  let t := (t.putchar 0x0D).puts (if s.sectionNo = 0 then prompt else [0x3C])
  t.draw dumb s s.first s.windowStart (cmdlineWidth - s.first)

/-- `cl_refresh` -/
def refresh (t : Screen) (s : State) (full : Bool) (len : Nat) : Screen :=
  let s' := s.clRefresh full
  if full then t.redraw prompt dumb s' else t.draw dumb s' s.xpos (s.windowStart + (s.xpos - s.first)) len

/-- `cl_backward` -/
def backward (t : Screen) (s : State) (count : Nat) : Screen :=
  let s : State := { s with lpos := s.lpos - count }
  if s.sectionNo = 1 ∧ s.plen + s.lpos < cmdlineWidth then t.refresh prompt dumb s true 0
  else if s.xpos - count < 1 then t.refresh prompt dumb s true 0
  else if dumb then t.puts (List.replicate count 8)
  else t.gotoxy (s.xpos - count).toNat

/-- `cl_forward` -/
def forward (t : Screen) (s : State) (count : Nat) : Screen :=
  let s : State := { s with lpos := s.lpos + count }
  if s.xpos + count ≥ cmdlineWidth then t.refresh prompt dumb s true 0
  else if dumb then t.putBuf s (s.lpos - count) count
  else t.gotoxy (s.xpos + count).toNat

/-- `cl_init` -/
def init (t : Screen) (s : State) : Screen := (t.putchar 0x0A).refresh prompt dumb s true 0

/-- What `cl_init` draws before the first key, where `s` is what it leaves. -/
def opened (t : Screen) (s : State) : Screen := (t.putchar 0x0A).redraw prompt dumb s

/-- `cl_insert` -/
def insert (t : Screen) (s : State) (u : List Byte) : Screen :=
  let l := u.length
  if (s.llen + l : Int) < s.maxlen then
    let mem :=
      if s.lpos = s.llen then s.copied s.mem (cmdlineBuf + s.lpos) (u ++ [0])
      else s.copied (s.moved (cmdlineBuf + s.lpos + l) (cmdlineBuf + s.lpos) (s.llen - s.lpos + 1)) (cmdlineBuf + s.lpos) u
    let s : State := { s with mem, llen := s.llen + l, lpos := s.lpos + l }
    if s.xpos + l ≥ cmdlineWidth then t.refresh prompt dumb s true 0
    else if s.xpos + l + s.llen - s.lpos > cmdlineWidth then t.refresh prompt dumb s false (cmdlineWidth - s.xpos).toNat
    else t.refresh prompt dumb s false (l + s.llen - s.lpos)
  else t

/-- `cl_delete` -/
def delete (t : Screen) (s : State) (count : Nat) : Screen :=
  let mem := s.moved (cmdlineBuf + s.lpos) (cmdlineBuf + s.lpos + count) (s.llen - count + 1)
  let s : State := { s with mem, llen := s.llen - count }
  if s.xpos + s.llen + count - s.lpos > cmdlineWidth then t.refresh prompt dumb s false (cmdlineWidth - s.xpos).toNat
  else t.refresh prompt dumb s false (s.llen + count - s.lpos)

/-- C-u -/
def killBackward (t : Screen) (s : State) : Screen :=
  if s.lpos = 0 then t
  else
    let count := s.lpos
    let s : State := { s with mem := Memory.store (s.moved killBuf cmdlineBuf count) (killBuf + count) [0] }
    (t.backward prompt dumb s count).delete prompt dumb (s.clBackward count) count

/-- C-k -/
def killForward (t : Screen) (s : State) : Screen :=
  if s.lpos = s.llen then t
  else
    let s : State := { s with mem := s.moved killBuf (cmdlineBuf + s.lpos) (s.llen - s.lpos + 1) }
    t.delete prompt dumb s (s.llen - s.lpos)

/-- A line takes the place of the one in `buf`. -/
def fetch (t : Screen) (s : State) (p : List Byte) : Screen :=
  let s : State := { s with mem := s.copied s.mem cmdlineBuf (p ++ [0]) }
  let s : State := { s with llen := s.buf.length, lpos := s.buf.length }
  t.refresh prompt dumb s true 0

/-- C-p -/
def previous (t : Screen) (s : State) : Screen :=
  let s := if s.history < 0 then { s with cmdline := s.copied s.cmdline 0 (s.buf ++ [0]) } else s.keepModified
  match s.getHistory (s.history + 1) with
  | none => t
  | some p => t.fetch prompt dumb { s with history := s.history + 1 } p

/-- C-n -/
def next (t : Screen) (s : State) : Screen :=
  if s.history < 0 then t
  else
    let s := s.keepModified
    let s : State := { s with history := s.history - 1 }
    t.fetch prompt dumb s ((s.getHistory s.history).getD (str s.cmdline 0))

/-- The completion is put in. -/
def putCompletion (t : Screen) (s : State) (i : Nat) (c : Completion) : Screen :=
  let s : State := { s with mem := Memory.store s.mem completionBuf (c.buffer ++ [0]) }
  if c.ret ≥ 0 then t.insert prompt dumb s (str s.mem (completionBuf + (s.lpos - i))) else t

/-- TAB, where `listing` is what `print_completions` prints, an error or the candidates. -/
def complete (t : Screen) (s : State) (completions : Completions) (listing : Screen → Screen) : Screen :=
  let pos := commandEnd s.buf
  let isFilename := decide (pos < s.lpos)
  let equal := equalPos s.buf pos
  let s := s.putEqual equal 0x20
  let i := wordStart s.mem s.lpos
  let s := s.copyWord i
  let c := completions isFilename (str s.mem completionBuf)
  let s : State := { s with pending := false }
  let t := t.putCompletion prompt dumb s i c
  let s := (s.putCompletion i c).putEqual equal 0x3D
  if c.ret ≠ 0 then
    let t := if 0 < c.ret then t.putchar 0x0A else t
    { listing t with reads := t.reads }.init prompt dumb s
  else t

end Screen

/-- A key, and what `print_completions` prints when it is pressed. -/
structure Press extends Key where
  listing : Screen → Screen

namespace Screen
variable (prompt : List Byte) (dumb : Bool)

/-- The readline-like key bindings. -/
def readlineKey (t : Screen) (s : State) (k : Press) : Screen :=
  match k.c.toNat with
  | 9 => t.complete prompt dumb s k.completions k.listing
  | 1 => t.backward prompt dumb s s.lpos
  | 5 => t.forward prompt dumb s (s.llen - s.lpos)
  | 6 => if s.lpos < s.llen then t.forward prompt dumb s 1 else t
  | 2 => if 0 < s.lpos then t.backward prompt dumb s 1 else t
  | 21 => t.killBackward prompt dumb s
  | 11 => t.killForward prompt dumb s
  | 25 => t.insert prompt dumb s (str s.mem killBuf)
  | 16 => t.previous prompt dumb s
  | 14 => t.next prompt dumb s
  | _ => t

/-- A key of the loop, which does not return. -/
def key (t : Screen) (s : State) (k : Press) : Screen :=
  let t := if s.readline then t.readlineKey prompt dumb s k else t
  let s := if s.readline then s.readlineKey k.toKey else s
  match k.c.toNat with
  | 4 => if s.lpos = s.llen then t else t.delete prompt dumb s 1
  | 8 => if 0 < s.lpos then (t.backward prompt dumb s 1).delete prompt dumb (s.clBackward 1) 1 else t
  | c => if 0x20 ≤ c ∧ c ≤ 0x7E then t.insert prompt dumb s [k.c] else t

end Screen

/-- The state and the screen behind some keys, unless one of them returns. -/
def typed (prompt : List Byte) (dumb : Bool) (s : State) (t : Screen) : List Press → Option (State × Screen)
  | [] => some (s, t)
  | k :: ks =>
    match s.key k.toKey with
    | .editing s' => typed prompt dumb s' (t.key prompt dumb s k) ks
    | .returned .. => none

end TrustedGrub.Line
