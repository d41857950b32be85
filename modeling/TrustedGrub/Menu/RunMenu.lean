import TrustedGrub.Menu.History

/-!
# The keys of the menu

The loop of `run_menu`: the bar, the search and the shortcuts by digits. What is printed is left out, and so is the text of
the entries, which comes with each key, as the variables in it stand for other texts then. What a key starts outside of the
menu comes with it too. Where a step writes behind an array, or a search does not come round in the passes that it is
given, there is no next state.
-/

namespace TrustedGrub.Menu

/-- `SEARCH_BUF_SIZE` -/
def searchBufSize : Nat := 20

/-- The size of `shortcut_buf`. -/
def shortcutBufSize : Nat := 5

/-- The size of the array that the numbers of the entries are printed to. -/
def scratchSize : Nat := 4

/-- `ASCII_CHAR (getkey ())`, and what there is when the key is pressed. -/
structure Key where
  c : Nat
  /-- The text of an entry, `var_sprint_buf (get_entry (menu_entries, i, 0))`. -/
  text : Int → List Char
  /-- The passes that a search is given. -/
  passes : Nat
  /-- There is a file to go back to. -/
  older : Bool
  /-- There is a password, and the user has no privileges. -/
  locked : Bool
  /-- What the key starts does not come back to this menu, as it loads another configuration file. -/
  leaves : Bool
  /-- `toggle_do_key` -/
  toggles : Bool
  /-- The fallback entry that is tried last when an entry is booted. -/
  fallback : Option Int
  /-- The terminal afterwards, `TERM_DUMB`. -/
  dumb : Bool

/-- The variables of `run_menu`. -/
structure RunMenu where
  numEntries : Int
  bar : Bar
  /-- There are `config_entries`: it is the main menu, not the one in which an entry is edited. -/
  main : Bool
  dumb : Bool
  shortcutBuf : List Char
  searchBuf : List Char
  searchMode : Bool
  searchDirection : Bool
  searchFound : Int

/-- How the handling of a key ends: in the loop, at `restart`, at `boot_entry`, or with a return. -/
inductive Next where
  | loop (s : RunMenu)
  | restart (s : RunMenu)
  | boot (s : RunMenu)
  | leave (s : RunMenu)

/-! ## The bar -/

/-- The entry that the bar is on. -/
def Bar.entry (b : Bar) : Int := b.firstEntry + b.entryno

/-- `set_bar_to` -/
def setBarTo (numEntries i : Int) : Bar :=
  if i - 5 < 0 ∨ numEntries < 13 then ⟨0, i⟩
  else if numEntries - i < 7 then ⟨numEntries - 12, i - (numEntries - 12)⟩
  else ⟨i - 5, 5⟩

/-- At `restart`: in a terminal that is not dumb the bar is in the twelve lines of the window. -/
def settle (dumb : Bool) (b : Bar) : Bar := if ¬ dumb ∧ 11 < b.entryno then ⟨b.firstEntry + (b.entryno - 11), 11⟩ else b

def up (dumb : Bool) (b : Bar) : Bar :=
  if dumb then if 0 < b.entryno then { b with entryno := b.entryno - 1 } else b
  else if 0 < b.entryno then { b with entryno := b.entryno - 1 }
  else if 0 < b.firstEntry then { b with firstEntry := b.firstEntry - 1 }
  else b

def down (dumb : Bool) (numEntries : Int) (b : Bar) : Bar :=
  if dumb then { b with entryno := b.entryno + 1 }
  else if b.entryno < 11 then { b with entryno := b.entryno + 1 }
  else if 12 + b.firstEntry < numEntries then { b with firstEntry := b.firstEntry + 1 }
  else b

def pageUp (b : Bar) : Bar :=
  if 11 < b.firstEntry then { b with firstEntry := b.firstEntry - 12 }
  else if b.firstEntry ≠ 0 then ⟨0, if b.entryno + b.firstEntry - 12 < 0 then 0 else b.firstEntry + b.entryno - 12⟩
  else if b.entryno ≠ 0 then { b with entryno := 0 }
  else b

def pageDown (numEntries : Int) (b : Bar) : Bar :=
  if b.firstEntry + 12 < numEntries then
    if b.firstEntry + 23 < numEntries then { b with firstEntry := b.firstEntry + 12 }
    else
      ⟨numEntries - 12, if numEntries ≤ b.entryno + b.firstEntry + 12 then 11 else b.entryno + (24 + b.firstEntry - numEntries)⟩
  else if b.firstEntry + b.entryno + 1 ≠ numEntries then { b with entryno := numEntries - b.firstEntry - 1 }
  else b

/-- The keys that move the bar. -/
def moveBar (dumb : Bool) (numEntries : Int) (c : Nat) (b : Bar) : Bar :=
  if c = 16 ∨ c = 0x5E ∨ c = 0x6B then up dumb b
  else if (c = 14 ∨ c = 0x76 ∨ c = 0x6A) ∧ b.firstEntry + b.entryno + 1 < numEntries then down dumb numEntries b
  else if c = 7 then pageUp b
  else if c = 3 then pageDown numEntries b
  else b

/-! ## The search -/

/-- The text has the searched one in it, in small letters. An empty text has none. -/
def occurs (buf text : List Char) : Bool := text.tails.dropLast.any fun t => buf.isPrefixOf (t.map Char.toLower)

/-- The loop of `search_menu`: the entry that is found, or -1. -/
def searchLoop (text : Int → List Char) (buf : List Char) (numEntries current direction : Int) : Nat → Int → Option Int
  | 0, _ => none
  | passes + 1, i =>
    if occurs buf (text i) then some i
    else
      let i := if direction = -1 ∧ i = 0 then numEntries else i
      let i := i + direction
      let i := if direction = 1 ∧ i = numEntries then 0 else i
      if i ≠ current then searchLoop text buf numEntries current direction passes i else some (-1)

/-- `search_menu` -/
def RunMenu.searchMenu (s : RunMenu) (k : Key) (backwards advance : Bool) : Option (Int × RunMenu) :=
  let direction : Int := if backwards then -1 else 1
  let current := s.bar.entry
  let current :=
    if advance then
      let current := current + direction
      if current < 0 then s.numEntries - 1 else if current = s.numEntries then 0 else current
    else current
  match searchLoop k.text s.searchBuf s.numEntries current direction k.passes current with
  | none => none
  | some found => some (found, if found = -1 then s else { s with bar := setBarTo s.numEntries found })

/-- A key in the search mode: whether it goes on to the other keys. -/
def RunMenu.searchKey (s : RunMenu) (k : Key) : Option (Bool × RunMenu) :=
  if k.c = 0x0D ∨ k.c = 0x0A ∨ k.c = 27 then some (false, { s with searchMode := false })
  else if k.c ≠ 8 ∧ k.c < 0x20 then some (true, { s with searchMode := false })
  else
    let s : RunMenu :=
      if k.c = 8 then if s.searchBuf = [] then { s with searchMode := false } else { s with searchBuf := s.searchBuf.dropLast }
      else if s.searchBuf.length < searchBufSize - 1 then { s with searchBuf := s.searchBuf ++ [(Char.ofNat k.c).toLower] }
      else s
    if s.searchMode then
      match s.searchMenu k s.searchDirection false with
      | none => none
      | some (found, s) => some (false, { s with searchFound := found })
    else some (false, s)

/-- The keys for the search outside of the search mode. -/
def RunMenu.startSearch (s : RunMenu) (k : Key) : RunMenu :=
  if k.c = 0x2F ∨ k.c = 0x3F then { s with searchMode := true, searchDirection := k.c = 0x3F, searchBuf := [], searchFound := 0 } else s

/-- `n` and `N` search again. -/
def RunMenu.searchAgain (s : RunMenu) (k : Key) : Option RunMenu :=
  if k.c = 0x6E ∧ 0 ≤ s.searchFound then (s.searchMenu k s.searchDirection true).map Prod.snd
  else if k.c = 0x4E ∧ 0 ≤ s.searchFound then (s.searchMenu k (!s.searchDirection) true).map Prod.snd
  else some s

/-! ## The shortcuts -/

/-- `grub_sprintf (buf, "%d", i)` -/
def decimal (i : Nat) : List Char := Nat.toDigits 10 i

/-- How far the typed digits go along with a number. -/
def common : List Char → List Char → Nat
  | c :: typed, d :: number => if c = d then common typed number + 1 else 0
  | _, _ => 0

/-- The loop over the entries, of which `left` are left: the matches, and the bar. -/
def shortcutLoop (typed : List Char) (numEntries : Int) : Nat → Nat → Nat → Bar → Option (Nat × Bar)
  | 0, _, matched, bar => some (matched, bar)
  | left + 1, i, matched, bar =>
    if scratchSize < (decimal i).length + 1 then none
    else if common typed (decimal i) = typed.length then
      if matched = 0 then shortcutLoop typed numEntries left (i + 1) 1 (setBarTo numEntries i) else some (matched + 1, bar)
    else shortcutLoop typed numEntries left (i + 1) matched bar

/-- Whether a key is a digit. -/
def Key.IsDigit (k : Key) : Prop := 0x30 ≤ k.c ∧ k.c ≤ 0x39

instance (k : Key) : Decidable k.IsDigit := inferInstanceAs (Decidable (_ ∧ _))

/-- The digits as shortcuts: the key that the rest of the loop sees. -/
def RunMenu.shortcut (s : RunMenu) (k : Key) : Option (Nat × RunMenu) :=
  if k.IsDigit then
    let typed := s.shortcutBuf ++ [Char.ofNat k.c]
    if shortcutBufSize < typed.length + 1 then none
    else
      match shortcutLoop typed s.numEntries s.numEntries.toNat 0 0 s.bar with
      | none => none
      | some (matched, bar) =>
        some (if matched = 1 ∧ s.main then 0x0A else k.c, { s with bar, shortcutBuf := if matched ≤ 1 then [] else typed })
  else some (k.c, { s with shortcutBuf := [] })

/-! ## The other keys -/

/-- The keys `d`, `o` and `O` of the editor, and what the key is then. -/
def RunMenu.editLines (s : RunMenu) (c : Nat) : Nat × RunMenu :=
  if c = 0x64 then
    if 0 < s.numEntries then
      let numEntries := s.numEntries - 1
      let bar := if numEntries ≤ s.bar.entryno then { s.bar with entryno := s.bar.entryno - 1 } else s.bar
      let bar := if bar.firstEntry ≠ 0 ∧ numEntries < 12 + bar.firstEntry then { bar with firstEntry := bar.firstEntry - 1 } else bar
      (c, { s with numEntries, bar })
    else (c, s)
  else if c = 0x6F then
    let bar :=
      if s.bar.entryno < 11 ∨ s.dumb then { s.bar with entryno := s.bar.entryno + 1 } else { s.bar with firstEntry := s.bar.firstEntry + 1 }
    (0x4F, { s with numEntries := s.numEntries + 1, bar })
  else if c = 0x4F then (c, { s with numEntries := s.numEntries + 1 })
  else (c, s)

/-- The password, the editor, the command line and the toggles. -/
def RunMenu.privileged (s : RunMenu) (k : Key) (c : Nat) : Next :=
  if k.locked then
    if c = 0x70 then if k.leaves then .leave s else .restart s else .loop s
  else if c = 0x65 ∨ c = 0x63 then if k.leaves then .leave s else .restart s
  else if k.toggles then .restart s
  else .loop s

/-- The keys that leave the menu or boot, and the ones of the editor. -/
def RunMenu.command (s : RunMenu) (k : Key) (c : Nat) : Next :=
  if c = 0x4D then .leave s
  else if s.main then
    if c = 0x72 then .leave s
    else if c = 0x0A ∨ c = 0x0D ∨ c = 6 ∨ c = 0x6C then .boot s
    else if (c = 2 ∨ c = 0x68) ∧ k.older then .leave s
    else s.privileged k c
  else
    let (c, s) := s.editLines c
    if c = 27 then .leave s
    else if c = 0x62 then .boot s
    else s.privileged k c

/-- What follows the search mode. -/
def RunMenu.handle (s : RunMenu) (k : Key) : Option Next :=
  match s.searchAgain k with
  | none => none
  | some s =>
    match s.shortcut k with
    | none => none
    | some (c, s) =>
      let s : RunMenu := { s with bar := moveBar s.dumb s.numEntries c s.bar }
      some (s.command k c)

/-- A key is pressed. -/
def RunMenu.press (s : RunMenu) (k : Key) : Option Next :=
  if s.searchMode then
    match s.searchKey k with
    | none => none
    | some (false, s) => some (.loop s)
    | some (true, s) => s.handle k
  else (s.startSearch k).handle k

/-! ## Runs -/

/-- At `restart`. -/
def RunMenu.restart (s : RunMenu) (dumb : Bool) : RunMenu := { s with dumb, bar := settle dumb s.bar }

/-- When an entry that was booted comes back, with the bar on the fallback entry that was tried last. -/
def RunMenu.booted (s : RunMenu) (fallback : Option Int) : RunMenu :=
  match fallback with
  | some i => { s with bar := ⟨0, i⟩ }
  | none => s

/-- A key, or the end of the timeout. -/
inductive MenuEvent where
  | key (k : Key)
  | expire (fallback : Option Int) (dumb : Bool)

def Next.state : Next → RunMenu
  | .loop s | .restart s | .boot s | .leave s => s

/-- The state in which the next key is pressed. -/
def Next.resume (k : Key) : Next → Option RunMenu
  | .loop s => some s
  | .restart s => some (s.restart k.dumb)
  | .boot s => some ((s.booted k.fallback).restart k.dumb)
  | .leave _ => none

def RunMenu.step (s : RunMenu) : MenuEvent → Option RunMenu
  | .key k => (s.press k).bind (Next.resume k)
  | .expire fallback dumb => some ((s.booted fallback).restart dumb)

def RunMenu.run : RunMenu → List MenuEvent → Option RunMenu
  | s, [] => some s
  | s, e :: es => (s.step e).bind fun s => s.run es

/-- `run_menu` is called. -/
def RunMenu.start (numEntries : Int) (bar : Bar) (main dumb : Bool) : RunMenu where
  numEntries
  bar := settle dumb bar
  main
  dumb
  shortcutBuf := []
  searchBuf := []
  searchMode := false
  searchDirection := false
  searchFound := 0

end TrustedGrub.Menu
