import TrustedGrub.Menu.ConfigLines

/-!
# The entries of a configuration

A configuration is a sequence of stanzas. The entries are those with a command, and both buffers
hold these, in their order.
-/

namespace TrustedGrub.Menu
open Fips180 (Byte)
open Boot (cString)
open Builtins (skipTo)

/-- What a line is. -/
inductive Item where
  | title (text : List Byte)
  /-- A known command other than `title`. -/
  | command (cmdline : List Byte)
  | unknown

def item (builtinTable : List Builtin) (line : List Byte) : Item :=
  match findCommand builtinTable (cString line) with
  | none => .unknown
  | some builtin => if builtin.flags &&& builtinTitle ≠ 0 then .title (skipTo true (cString line)) else .command (cString line)

structure Stanza where
  title : List Byte
  commands : List (List Byte)

/-- The commands before the next title. -/
def commandsOf : List Item → List (List Byte)
  | [] => []
  | .title _ :: _ => []
  | .command cmdline :: items => cmdline :: commandsOf items
  | .unknown :: items => commandsOf items

/-- A stanza for each title. -/
def stanzas : List Item → List Stanza
  | [] => []
  | .title text :: items => ⟨text, commandsOf items⟩ :: stanzas items
  | .command _ :: items => stanzas items
  | .unknown :: items => stanzas items

def Stanza.HasCommands (s : Stanza) : Prop := s.commands ≠ []

instance (s : Stanza) : Decidable s.HasCommands := inferInstanceAs (Decidable (_ ≠ _))

/-- The stanzas that contain a known command. -/
def nonempty (ss : List Stanza) : List Stanza := ss.filter fun s => s.HasCommands

/-! ## The parser -/

section Parser
variable {builtinTable : List Builtin} {p : Parse} {done : List Stanza} {current : Option Stanza} {s : Stanza}

def titles (ss : List Stanza) : List Byte := Packed.lines 0 (ss.map Stanza.title)
def commands (ss : List Stanza) : List Byte := (ss.map Stanza.commands).flatMap (Packed.group 0)

theorem titles_append (ss : List Stanza) (s : Stanza) : titles (ss ++ [s]) = titles ss ++ (s.title ++ [0]) := by
  simp only [titles, Packed.lines, List.map_append, List.flatMap_append, List.map_cons, List.map_nil, List.flatMap_cons, List.flatMap_nil,
    List.append_nil]

theorem commands_append (ss : List Stanza) (s : Stanza) : commands (ss ++ [s]) = commands ss ++ (Packed.lines 0 s.commands ++ [0]) := by
  simp only [commands, Packed.group, List.map_append, List.flatMap_append, List.map_cons, List.map_nil, List.flatMap_cons, List.flatMap_nil,
    List.append_nil]

/-- The parser has found the entries `done`, and is in the stanza `current`. -/
structure Parse.Holds (p : Parse) (done : List Stanza) (current : Option Stanza) : Prop where
  numEntries : p.numEntries = done.length
  state : p.state = (current.map fun s => s.commands.length + 1).getD 0
  configEntries : p.configEntries = commands done ++ (current.map fun s => Packed.lines 0 s.commands).getD []
  menuEntries : p.menuEntries = titles done ++ (current.map fun s => s.title ++ [0]).getD []
  prevConfigLen : p.prevConfigLen = (commands done).length
  prevMenuLen : p.prevMenuLen = (titles done).length

theorem nonempty_keep (h : s.HasCommands) : nonempty [s] = [s] := List.filter_cons_of_pos (decide_eq_true h)

theorem nonempty_drop (h : ¬ s.HasCommands) : nonempty [s] = [] := List.filter_cons_of_neg fun hyes => h (of_decide_eq_true hyes)

/-- The entries, once the current stanza ends. -/
def closed (done : List Stanza) (current : Option Stanza) : List Stanza := done ++ nonempty current.toList

/-- The current stanza ends: it becomes an entry, or is taken back. -/
def Parse.close (p : Parse) : Parse := if 1 < p.state then p.nextTitle else p.rollback

/-- Between two stanzas. -/
structure Parse.Between (p : Parse) (done : List Stanza) : Prop where
  numEntries : p.numEntries = done.length
  configEntries : p.configEntries = commands done
  menuEntries : p.menuEntries = titles done
  prevConfigLen : p.prevConfigLen = (commands done).length
  prevMenuLen : p.prevMenuLen = (titles done).length

theorem Parse.Holds.rollback (h : p.Holds done current) (hconfig : (current.map fun s => Packed.lines 0 s.commands).getD [] = []) :
    p.rollback.Between done where
  numEntries := h.numEntries
  configEntries := by
    show p.configEntries.take p.prevConfigLen = _
    rw [h.configEntries, h.prevConfigLen, hconfig, List.append_nil, List.take_length]
  menuEntries := by
    show p.menuEntries.take p.prevMenuLen = _
    rw [h.menuEntries, h.prevMenuLen, List.take_left]
  prevConfigLen := h.prevConfigLen
  prevMenuLen := h.prevMenuLen

theorem Parse.Holds.nextTitle (h : p.Holds done (some s)) : p.nextTitle.Between (done ++ [s]) := by
  have hmenu : p.menuEntries = titles (done ++ [s]) := h.menuEntries.trans (titles_append done s).symm
  have hconfig : p.configEntries ++ [0] = commands (done ++ [s]) := by
    rw [h.configEntries, commands_append, List.append_assoc]
    rfl
  refine ⟨?_, hconfig, hmenu, ?_, congrArg List.length hmenu⟩
  · rw [List.length_append]
    exact congrArg (· + 1) h.numEntries
  · rw [← hconfig, List.length_append]
    rfl

theorem Parse.Holds.close (h : p.Holds done current) : p.close.Between (closed done current) := by
  unfold Parse.close closed
  cases current with
  | none =>
    rw [if_neg (by rw [h.state]; exact Nat.not_lt_zero 1)]
    exact (List.append_nil done).symm ▸ h.rollback rfl
  | some s =>
    by_cases hcommands : s.HasCommands
    · have hstate : 1 < p.state := h.state ▸ Nat.succ_lt_succ (List.length_pos_iff.2 hcommands)
      rw [if_pos hstate, Option.toList_some, nonempty_keep hcommands]
      exact h.nextTitle
    · have hnone : s.commands = [] := not_not.1 hcommands
      have hstate : p.state = 1 := by
        rw [h.state, Option.map_some, hnone]
        rfl
      rw [if_neg (hstate ▸ Nat.lt_irrefl 1), Option.toList_some, nonempty_drop hcommands, List.append_nil]
      apply h.rollback
      rw [Option.map_some, hnone]
      rfl

/-- What a line does. -/
def step (done : List Stanza) (current : Option Stanza) : Item → List Stanza × Option Stanza
  | .title text => (closed done current, some ⟨text, []⟩)
  | .command cmdline => (done, current.map fun s => ⟨s.title, s.commands ++ [cmdline]⟩)
  | .unknown => (done, current)

theorem Parse.Holds.line (h : p.Holds done current) (line : List Byte) :
    (p.line builtinTable line).Holds (step done current (item builtinTable line)).1 (step done current (item builtinTable line)).2 := by
  rcases hfind : findCommand builtinTable (cString line) with _ | builtin
  · simp only [Parse.line, item, hfind]
    exact h
  by_cases htitle : builtin.flags &&& builtinTitle ≠ 0
  · -- A title ends the current stanza and starts another one.
    simp only [Parse.line, item, hfind, if_pos htitle]
    have hclose := h.close
    refine ⟨hclose.numEntries, rfl, ?_, ?_, hclose.prevConfigLen, hclose.prevMenuLen⟩
    · exact hclose.configEntries.trans (List.append_nil _).symm
    · show p.close.menuEntries ++ skipTo true (cString line) ++ [0] = _
      rw [hclose.menuEntries, List.append_assoc]
      rfl
  simp only [Parse.line, item, hfind, if_neg htitle]
  cases current with
  | none =>
    rw [if_pos (show p.state = 0 from h.state)]
    split
    · exact ⟨h.numEntries, h.state, h.configEntries, h.menuEntries, h.prevConfigLen, h.prevMenuLen⟩
    · exact h
  | some s =>
    have hstate : p.state ≠ 0 := h.state ▸ Nat.succ_ne_zero _
    rw [if_neg hstate]
    refine ⟨h.numEntries, ?_, ?_, h.menuEntries, h.prevConfigLen, h.prevMenuLen⟩
    · show p.state + 1 = (s.commands ++ [cString line]).length + 1
      rw [h.state, List.length_append]
      rfl
    · show p.configEntries ++ cString line ++ [0] = commands done ++ Packed.lines 0 (s.commands ++ [cString line])
      rw [h.configEntries]
      simp only [Packed.lines, Option.map_some, Option.getD_some, List.flatMap_append, List.flatMap_cons, List.flatMap_nil, List.append_nil,
        List.append_assoc]

/-- What the current stanza and the stanzas behind it come to. -/
def remaining (current : Option Stanza) (items : List Item) : List Stanza :=
  nonempty ((current.map fun s => (⟨s.title, s.commands ++ commandsOf items⟩ : Stanza)).toList ++ stanzas items)

theorem remaining_step (done : List Stanza) (current : Option Stanza) (i : Item) (items : List Item) :
    (step done current i).1 ++ remaining (step done current i).2 items = done ++ remaining current (i :: items) := by
  cases i with
  | title text =>
    cases current with
    | none =>
      simp only [step, closed, remaining, nonempty, stanzas, Option.toList_none, Option.map_none, Option.map_some, Option.toList_some,
        List.filter_nil, List.append_nil, List.nil_append, List.singleton_append]
    | some s =>
      simp only [step, closed, remaining, nonempty, stanzas, commandsOf, Option.map_some, Option.toList_some, List.nil_append,
        List.append_nil,
        List.append_assoc, ← List.filter_append, List.singleton_append]
  | command cmdline =>
    cases current with
    | none => rfl
    | some s => simp only [step, remaining, stanzas, commandsOf, Option.map_some, List.append_assoc, List.singleton_append]
  | unknown => rfl

/-- **The run of the parser** from any place in the configuration. -/
theorem Parse.Holds.run (h : p.Holds done current) (lines : List (List Byte)) :
    (lines.foldl (Parse.line builtinTable) p).close.Between (done ++ remaining current (lines.map (item builtinTable))) := by
  induction lines generalizing p done current with
  | nil =>
    have hnow : done ++ remaining current [] = closed done current := by
      cases current with
      | none => rfl
      | some s => simp only [remaining, closed, commandsOf, stanzas, Option.map_some, List.append_nil]
    rw [List.map_nil, hnow]
    exact h.close
  | cons line lines ih =>
    rw [List.map_cons, ← remaining_step]
    exact ih (h.line line)

end Parser

/-! ## The strings of the entries -/

section Strings
variable {builtinTable : List Builtin} {builtin : Builtin} {line command : List Byte} {items : List Item}

theorem grubStrcmp_eq {s t : List Byte} (h : grubStrcmp s t = .eq) : s = t := by
  induction s generalizing t with
  | nil =>
    cases t with
    | nil => rfl
    | cons d t =>
      rw [grubStrcmp] at h
      split at h <;> cases h
  | cons c s ih =>
    cases t with
    | nil =>
      rw [grubStrcmp] at h
      split at h <;> cases h
    | cons d t =>
      rw [grubStrcmp] at h
      split at h
      · cases h
      next hlow =>
      split at h
      · cases h
      next hhigh =>
      rw [BitVec.eq_of_toInt_eq (Int.le_antisymm (Int.not_lt.1 hhigh) (Int.not_lt.1 hlow)), ih h]

/-- The strings of an item end where their terminator is. -/
def Item.Proper : Item → Prop
  | .title text => 0 ∉ text
  | .command cmdline => 0 ∉ cmdline ∧ cmdline ≠ []
  | .unknown => True

end Strings

/-! ## The result -/

/-- What is kept of the logical lines: their first characters, as many as fit. -/
def lines (stream : List Byte) : List (List Byte) := (logicalLines stream).map (written newHeapsize)

/-- The entries of a configuration: the stanzas with a known command. -/
def entries (builtinTable : List Builtin) (stream : List Byte) : List Stanza :=
  nonempty (stanzas ((lines stream).map (item builtinTable)))

end TrustedGrub.Menu
