import TrustedGrub.Boot.Checkfile
import TrustedGrub.Builtins.DriveMap
import TrustedGrub.Lib.Packed

/-!
# The configuration file

How `cmain` reads a configuration into two packed buffers, one with the titles and one with the
commands. The configuration is the stream of the bytes that `grub_read` or the preset menu delivers,
one at a time, until nothing is left and no error is set.
-/

namespace TrustedGrub.Menu
open Fips180 (Byte)
open Boot (cString)
open Builtins (skipTo)

/-! ## Commands -/

/-- An entry of `builtin_table`. -/
structure Builtin where
  name : List Byte
  named : name ≠ []
  flags : BitVec 32

def builtinMenu : BitVec 32 := 0x2
def builtinTitle : BitVec 32 := 0x4

/-- `grub_strcmp`, where characters are signed. -/
def grubStrcmp : List Byte → List Byte → Ordering
  | [], [] => .eq
  | [], c :: _ => if 0 < c.toInt then .lt else .gt
  | c :: _, [] => if c.toInt < 0 then .lt else .gt
  | c :: s, d :: t => if c.toInt < d.toInt then .lt else if d.toInt < c.toInt then .gt else grubStrcmp s t

/-- The loop of `find_command`. -/
def seekBuiltin (command : List Byte) : List Builtin → Option Builtin
  | [] => none
  | builtin :: builtins =>
    match grubStrcmp command builtin.name with
    | .eq => some builtin
    | .lt => none
    | .gt => seekBuiltin command builtins

/-- `find_command`: the command name ends at the first space. -/
def findCommand (builtinTable : List Builtin) (command : List Byte) : Option Builtin :=
  seekBuiltin (command.takeWhile fun c => ¬ (c = 0x20 ∨ c = 0x09 ∨ c = 0x3D)) builtinTable

/-! ## Lines -/

def newHeapsize : Nat := 1500

/-- The variables of `get_line_from_config`. What is in `cmdline` is as long as `pos`. -/
structure Reader where
  cmdline : List Byte
  literal : Bool
  comment : Bool

def Reader.start : Reader := ⟨[], false, false⟩

/-- One pass of the loop: the variables, and whether the line ends. -/
def Reader.next (maxlen : Nat) (c : Byte) (r : Reader) : Reader × Bool :=
  -- Skip all carriage returns.
  if c = 0x0D then (r, false)
  else
    let c := if c = 0x09 then 0x20 else c
    -- A newline behind a backslash is replaced with a space, which overwrites the backslash.
    let joined := r.literal && decide (c = 0x0A)
    let c := if joined then 0x20 else c
    let cmdline := if joined then r.cmdline.dropLast else r.cmdline
    let literal := decide (c = 0x5C)
    if r.comment then (⟨cmdline, literal, decide (c ≠ 0x0A)⟩, false)
    else if cmdline = [] then
      if c = 0x23 then (⟨cmdline, literal, true⟩, false)
      else if c ≠ 0x20 ∧ c ≠ 0x0A then (⟨[c], literal, false⟩, false)
      else (⟨cmdline, literal, false⟩, false)
    else if c = 0x0A then (⟨cmdline, literal, false⟩, true)
    else if cmdline.length < maxlen then (⟨cmdline ++ [c], literal, false⟩, false)
    else (⟨cmdline, literal, false⟩, false)

/-- `get_line_from_config` for a stream: the rest of a line, and what is left. -/
def getLine (maxlen : Nat) : List Byte → Reader → List Byte × List Byte
  | [], r => (r.cmdline, [])
  | c :: stream, r =>
    let (r, ends) := r.next maxlen c
    if ends then (r.cmdline, stream) else getLine maxlen stream r

theorem getLine_rest (maxlen : Nat) (stream : List Byte) (r : Reader) : (getLine maxlen stream r).2.length ≤ stream.length - 1 := by
  induction stream generalizing r with
  | nil => exact Nat.zero_le _
  | cons c stream ih =>
    rw [getLine]
    dsimp only
    split
    · exact Nat.le_refl _
    · exact (ih _).trans (Nat.sub_le ..)

/-- The lines that the calls return for `maxlen`, as far as one of length zero. -/
def readLines (maxlen : Nat) (stream : List Byte) : List (List Byte) :=
  if (getLine maxlen stream .start).1 = [] then []
  else (getLine maxlen stream .start).1 :: readLines maxlen (getLine maxlen stream .start).2
termination_by stream.length
decreasing_by
  next hline =>
  cases stream with
  | nil => exact absurd rfl hline
  | cons c stream =>
    have hrest := getLine_rest maxlen (c :: stream) .start
    rw [List.length_cons] at hrest ⊢
    exact Nat.lt_succ_of_le hrest

/-! ## Entries -/

/-- The variables of `cmain`. The buffers are given as far as `config_len` and `menu_len`, and `ran`
is what was run of the commands before the first title. -/
structure Parse where
  numEntries : Nat
  state : Nat
  configEntries : List Byte
  menuEntries : List Byte
  prevConfigLen : Nat
  prevMenuLen : Nat
  ran : List (Builtin × List Byte)

def Parse.start : Parse := ⟨0, 0, [], [], 0, 0, []⟩

/-- The next title is found. -/
def Parse.nextTitle (p : Parse) : Parse where
  numEntries := p.numEntries + 1
  state := p.state
  configEntries := p.configEntries ++ [0]
  menuEntries := p.menuEntries
  prevConfigLen := p.configEntries.length + 1
  prevMenuLen := p.menuEntries.length
  ran := p.ran

/-- Back to where the last entry ends. -/
def Parse.rollback (p : Parse) : Parse :=
  { p with menuEntries := p.menuEntries.take p.prevMenuLen, configEntries := p.configEntries.take p.prevConfigLen }

/-- One line. -/
def Parse.line (builtinTable : List Builtin) (p : Parse) (line : List Byte) : Parse :=
  let cmdline := cString line
  match findCommand builtinTable cmdline with
  | none => p
  | some builtin =>
    if builtin.flags &&& builtinTitle ≠ 0 then
      let p := if 1 < p.state then p.nextTitle else p.rollback
      { p with state := 1, menuEntries := p.menuEntries ++ skipTo true cmdline ++ [0] }
    else if p.state = 0 then
      if builtin.flags &&& builtinMenu ≠ 0 then { p with ran := p.ran ++ [(builtin, skipTo true cmdline)] } else p
    else { p with state := p.state + 1, configEntries := p.configEntries ++ cmdline ++ [0] }

/-- Finish the last entry. -/
def Parse.finish (p : Parse) : Parse :=
  let p := if 1 < p.state then { p with numEntries := p.numEntries + 1, configEntries := p.configEntries ++ [0] } else p.rollback
  { p with menuEntries := p.menuEntries ++ [0], configEntries := p.configEntries ++ [0] }

/-- What `cmain` has for the menu: the number of entries, and the memory from `config_entries` and
from `menu_entries` on. -/
structure Entries where
  numEntries : Nat
  configEntries : List Byte
  menuEntries : List Byte

/-- The titles are moved behind the commands. -/
def Parse.entries (p : Parse) (behind : List Byte) : Entries where
  numEntries := p.numEntries
  configEntries := p.configEntries ++ (p.menuEntries ++ behind)
  menuEntries := p.menuEntries ++ behind

/-- `get_entry (list, num, nested)`. -/
def getEntry (list : List Byte) (num : Nat) (nested : Bool) : Option (List Byte) := Packed.entry 0 nested list num

end TrustedGrub.Menu
