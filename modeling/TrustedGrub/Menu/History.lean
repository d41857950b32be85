import TrustedGrub.Lib.Memory
import TrustedGrub.Lib.Ring
import TrustedGrub.Sha1.Fips180

/-!
# The history of configuration files

`cmain` puts the name of each configuration file that it has loaded into a ring, and a key of the menu goes back in it.
The menu notes in the ring where its bar stood. What is loaded and what its menu comes to is up to the disk and the user.
-/

namespace TrustedGrub.Menu
open Fips180 (Byte)
open Memory (slice store)

def configFileLen : Nat := 128
def configFileHistoryEntries : Nat := 10

/-- `MASTER_CONFIG_FILE`, `(nd)/tftpboot/m`. -/
def masterConfigFile : List Byte :=
  [0x28, 0x6E, 0x64, 0x29, 0x2F, 0x74, 0x66, 0x74, 0x70, 0x62, 0x6F, 0x6F, 0x74, 0x2F, 0x6D]

/-- The place of the bar in a menu: the entry in the first line, and the line of the bar. -/
structure Bar where
  firstEntry : Int
  entryno : Int
  deriving DecidableEq

/-- `config_file_history_struct` -/
structure Slot where
  filename : List Byte
  bar : Bar

/-- `config_file_history` with its indices. `menuPos` is none for -1. -/
structure History where
  slots : Nat → Slot
  pos : Nat
  start : Nat
  prevPos : Nat
  menuPos : Option Nat

namespace History

/-- The statics when GRUB starts. -/
def empty : History where
  slots _ := ⟨List.replicate configFileLen 0, ⟨0, 0⟩⟩
  pos := 0
  start := 0
  prevPos := 0
  menuPos := none

/-- Save history for `config_file`. The `memmove` does nothing while an error is pending. -/
def save (h : History) (pending : Bool) (configFile : Nat → Byte) : History :=
  let pos := if h.pos + 1 = configFileHistoryEntries then 0 else h.pos + 1
  { h with
    slots := if pending then h.slots else Function.update h.slots h.pos { h.slots h.pos with filename := slice configFile 0 configFileLen }
    prevPos := h.pos
    pos
    start := if h.start = pos then (if h.start + 1 = configFileHistoryEntries then 0 else h.start + 1) else h.start }

/-- A key that boots notes the bar. -/
def record (h : History) (bar : Bar) : History :=
  { h with slots := Function.update h.slots h.prevPos { h.slots h.prevPos with bar } }

/-- Go back in history if possible: `config_file` and the history with which `run_menu` returns. -/
def goBack (h : History) (pending : Bool) (configFile : Nat → Byte) : Option ((Nat → Byte) × History) :=
  if h.prevPos ≠ h.start then
    let p := if h.prevPos = 0 then configFileHistoryEntries - 1 else h.prevPos - 1
    some (if pending then configFile else store configFile 0 (h.slots p).filename, { h with pos := p, menuPos := some p })
  else none

/-- At `restart`: in a history back movement, the menu values are the previous ones. -/
def restore (h : History) (bar : Bar) : Bar × History :=
  match h.menuPos with
  | some p => ((h.slots p).bar, { h with menuPos := none })
  | none => (bar, h)

end History

/-! ## Runs -/

/-- What loading `config_file` comes to. -/
structure Loading where
  /-- The preset menu is opened first. -/
  preset : Bool
  opens : Bool
  /-- The reading of the file breaks off, which leaves `errnum` set. -/
  broke : Bool
  numEntries : Nat
  defaultEntry : Nat

/-- Where GRUB is between two keys or commands, and whether `errnum` is set. Without a menu it is at the command line. -/
structure Stage2 where
  configFile : Nat → Byte
  pending : Bool
  history : History
  shown : Bool
  bar : Bar

/-- What happens next. A new name for `config_file` comes from the command line, from the commands of an entry or from the
password prompt, which copy it byte by byte, or from the key for the master file. What else is done sets or clears `errnum`. -/
inductive Event where
  | load (file : Option (List Byte)) (loading : Loading)
  | master (loading : Loading)
  | errnum (pending : Bool)
  | move (bar : Bar)
  | boot
  | back (loading : Loading)

namespace Stage2

/-- GRUB starts. -/
def start (configFile : Nat → Byte) : Stage2 := ⟨configFile, false, .empty, false, ⟨0, 0⟩⟩

/-- A round of `cmain` up to the first key in the menu. -/
def load (s : Stage2) (l : Loading) : Stage2 :=
  let history := if l.preset then s.history.save false s.configFile else s.history
  let history := if l.opens then history.save l.broke s.configFile else history
  let s := { s with pending := l.opens && l.broke }
  if (l.preset ∨ l.opens) ∧ 0 < l.numEntries then
    let (bar, history) := history.restore ⟨0, l.defaultEntry⟩
    { s with history, shown := true, bar }
  else { s with history, shown := false }

def step (s : Stage2) : Event → Stage2
  | .load file l =>
    match file with
    | some name => { s with configFile := store s.configFile 0 name }.load l
    | none => s.load l
  | .master l =>
    if s.shown then { s with configFile := if s.pending then s.configFile else store s.configFile 0 (masterConfigFile ++ [0]) }.load l else
      s
  | .errnum pending => { s with pending }
  | .move bar => if s.shown then { s with bar } else s
  | .boot => if s.shown then { s with history := s.history.record s.bar } else s
  | .back l =>
    if s.shown then
      match s.history.goBack s.pending s.configFile with
      | some (configFile, history) => { s with configFile, history }.load l
      | none => s
    else s

def run (s : Stage2) (events : List Event) : Stage2 := events.foldl step s

end Stage2

/-! ## The stack that it is -/

/-- A file that was loaded, and where its bar stood when an entry was booted from it. -/
structure Entry where
  filename : List Byte
  bar : Option Bar

/-- The files, the one that is shown last. -/
structure Browser where
  configFile : Nat → Byte
  pending : Bool
  files : List Entry
  shown : Bool
  bar : Bar

namespace Browser

def start (configFile : Nat → Byte) : Browser := ⟨configFile, false, [], false, ⟨0, 0⟩⟩

/-- A file is loaded and put on top. -/
def load (b : Browser) (l : Loading) : Browser :=
  let b : Browser := { b with pending := l.opens && l.broke }
  let b : Browser :=
    if l.opens then { b with files := Ring.push configFileHistoryEntries b.files ⟨slice b.configFile 0 configFileLen, none⟩ } else b
  if l.opens ∧ 0 < l.numEntries then { b with shown := true, bar := ⟨0, l.defaultEntry⟩ } else { b with shown := false }

/-- The file on top goes, and the one below it is loaded, with its bar where it stood. -/
def goBack (b : Browser) (l : Loading) (below : List Entry) (entry : Entry) : Browser :=
  { b with
    configFile := store b.configFile 0 entry.filename
    pending := l.broke
    files := below ++ [entry]
    shown := true
    bar := entry.bar.getD ⟨0, l.defaultEntry⟩ }

/-- The entries below the top one, and the one directly below it. -/
def older (b : Browser) : Option (List Entry × Entry) :=
  match b.files.dropLast.getLast? with
  | some entry => some (b.files.dropLast.dropLast, entry)
  | none => none

def step (b : Browser) : Event → Browser
  | .load file l =>
    match file with
    | some name => { b with configFile := store b.configFile 0 name }.load l
    | none => b.load l
  | .master l => if b.shown then { b with configFile := store b.configFile 0 (masterConfigFile ++ [0]) }.load l else b
  | .errnum pending => { b with pending }
  | .move bar => if b.shown then { b with bar } else b
  | .boot =>
    match b.shown, b.files.getLast? with
    | true, some entry => { b with files := b.files.dropLast ++ [{ entry with bar := some b.bar }] }
    | _, _ => b
  | .back l =>
    match b.shown, b.older with
    | true, some (below, entry) => b.goBack l below entry
    | _, _ => b

def run (b : Browser) (events : List Event) : Browser := events.foldl step b

/-- No preset menu is opened, no reading breaks off, no error is pending when a key copies a name, and where a key goes back,
an entry was booted from the file that it goes back to, which opens again and has a menu. -/
def Sound (b : Browser) : Event → Prop
  | .load _ l => l.preset = false ∧ l.broke = false
  | .master l => b.shown = true → b.pending = false ∧ l.preset = false ∧ l.broke = false
  | .errnum _ => True
  | .move _ => True
  | .boot => True
  | .back l => b.shown = true → ∀ below entry, b.older = some (below, entry) →
    b.pending = false ∧ l.preset = false ∧ l.broke = false ∧ l.opens = true ∧ 0 < l.numEntries ∧ entry.bar ≠ none

/-- All steps of a run meet the condition. -/
def SoundRun (b : Browser) : List Event → Prop
  | [] => True
  | e :: es => b.Sound e ∧ (b.step e).SoundRun es

end Browser

end TrustedGrub.Menu
