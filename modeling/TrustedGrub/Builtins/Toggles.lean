import TrustedGrub.Builtins.Variables

/-!
# Toggles

A toggle is a key with blocks of assignments. `toggle_func` defines and selects them, and `toggle_do_key`
goes from one block to the next. A text is what lies in memory from the argument on.
-/

namespace TrustedGrub.Builtins
open Fips180 (Byte)
open Disk (GrubError isspace safeParseMaxint)

def maxToggles : Nat := 10
def maxBlocks : Nat := 7
def maxVarPerBlock : Nat := 4

structure ToggleVar where
  var : Int
  value : Option Nat

structure ToggleBlock where
  nrVars : Nat
  var : Nat → ToggleVar

/-- `struct toggle_data_struct` -/
structure Toggle where
  key : Int
  currentBlock : Nat
  nrBlocks : Nat
  block : Nat → ToggleBlock

structure State extends Vars where
  togglesUsed : Nat
  toggleData : Nat → Toggle

namespace State

/-- `toggle_data[slot].block[bl].var[var]` -/
def entry (s : State) (slot bl var : Nat) : ToggleVar := ((s.toggleData slot).block bl).var var

def withVars (s : State) (vars : Vars) : State := { s with toVars := vars }

def withToggle (s : State) (slot : Nat) (t : Toggle) : State := { s with toggleData := Function.update s.toggleData slot t }

def withBlock (s : State) (slot bl : Nat) (b : ToggleBlock) : State :=
  s.withToggle slot { s.toggleData slot with block := Function.update (s.toggleData slot).block bl b }

def setEntry (s : State) (slot bl var : Nat) (e : ToggleVar) : State :=
  s.withBlock slot bl { (s.toggleData slot).block bl with var := Function.update ((s.toggleData slot).block bl).var var e }

/-! ## Blocks -/

/-- An assignment of a block. There is no answer where the variable has no name. -/
def doVar (s : State) (slot bl v : Nat) : Option State := do
  let e := s.entry slot bl v
  if 0 ≤ e.var ∧ e.var < variablesMax then
    let a ← (s.list e.var.toNat).name
    some (s.withVars (s.setNoCopy (s.str a) e.value).2)
  else none

/-- `toggle_do_block` -/
def doBlock (s : State) (slot bl : Nat) : Option (Bool × State) :=
  if s.togglesUsed ≤ slot ∨ (s.toggleData slot).nrBlocks ≤ bl then some (false, s)
  else ((List.range ((s.toggleData slot).block bl).nrVars).foldlM (fun (s : State) v => s.doVar slot bl v) s).map fun s => (true, s)

/-- `toggle_find_slot` -/
def findSlot (s : State) (key : Int) : Option Nat := (List.range s.togglesUsed).find? fun i => (s.toggleData i).key = key

/-- `get_toggle_slot_for_key` -/
def getSlotForKey (s : State) (key : Int) : Option Nat := (List.range maxToggles).find? fun i => (s.toggleData i).key = key

def setCurrent (s : State) (slot bl : Nat) : State := s.withToggle slot { s.toggleData slot with currentBlock := bl }

/-- `toggle_do_key` -/
def doKey (s : State) (key : Int) : Option (Bool × State) :=
  match s.findSlot key with
  | none => some (false, s)
  | some slot =>
    let current := (s.toggleData slot).currentBlock + 1
    let current := if current = (s.toggleData slot).nrBlocks then 0 else current
    ((s.setCurrent slot current).doBlock slot current).map fun (_, s) => (true, s)

/-! ## The definition of a toggle -/

/-- The name and the value of an assignment. -/
def parseVar (text : List Byte) : Option (List Byte × List Byte) :=
  let start := text.dropWhile isspace
  let name := start.takeWhile fun c => c ≠ 0x3D ∧ ¬ isspace c
  match (start.drop name.length).dropWhile isspace with
  | [] => none
  | c :: rest => if c = 0x3D then some (name, rest.dropWhile isspace) else none

/-- The same value is there already. -/
def hasValue (s : State) (slot bl var : Nat) (name value : List Byte) : Bool :=
  (s.entry slot bl var).value.any (fun p => s.str p = value) && (s.getIndex name).isSome

/-- Space for the value is allocated, and the value is hung in. -/
def hangIn (s : State) (slot bl var : Nat) (name value : List Byte) : Bool × State :=
  match s.copy value with
  | none => (false, s)
  | some (v, vars) =>
    let s := s.withVars (vars.setNoCopy name (some v)).2
    match s.getIndex name with
    | none => (false, s.setEntry slot bl var { s.entry slot bl var with var := -1 })
    | some i => (true, s.setEntry slot bl var ⟨i, some v⟩)

/-- `nr_vars`, after an assignment. -/
def countVar (s : State) (slot bl var : Nat) : State :=
  let b := (s.toggleData slot).block bl
  s.withBlock slot bl { b with nrVars := max b.nrVars (var + 1) }

/-- `process_var`: whether it returns 0. -/
def processVar (s : State) (slot bl var : Nat) (text : List Byte) : Bool × State :=
  match parseVar text with
  | none => (false, s)
  | some (name, value) =>
    if s.hasValue slot bl var name value then (true, s.countVar slot bl var)
    else
      match s.hangIn slot bl var name value with
      | (false, s) => (false, s)
      | (true, s) => (true, s.countVar slot bl var)

/-- The assignments of a block. The last character belongs to the last one, whatever it is. -/
def splitVars : List Byte → List Byte → List (List Byte)
  | _, [] => []
  | start, [c] => [start ++ [c]]
  | start, c :: d :: rest => if c = 0x2C then start :: splitVars [] (d :: rest) else splitVars (start ++ [c]) (d :: rest)

/-- `process_block`, for its assignments from number `var` on. -/
def processBlock (s : State) (slot bl : Nat) : Nat → List (List Byte) → Option GrubError × State
  | _, [] => (none, s)
  | var, text :: texts =>
    if var = maxVarPerBlock then (some .wontFit, s)
    else
      match s.processVar slot bl var text with
      | (false, s) => (some .badArgument, s)
      | (true, s) => s.processBlock slot bl (var + 1) texts

/-- A block in braces, and the text behind it. -/
def nextBlock (text : List Byte) : Option (List Byte × List Byte) :=
  match text.dropWhile isspace with
  | [] => none
  | c :: rest =>
    if c = 0x7B then
      match rest.dropWhile fun c => c ≠ 0x7D with
      | [] => none
      | _ :: behind => some (rest.takeWhile fun c => c ≠ 0x7D, behind)
    else none

theorem nextBlock_length {text body behind : List Byte} (h : nextBlock text = some (body, behind)) : behind.length < text.length := by
  unfold nextBlock at h
  split at h
  · cases h
  next c rest hstart =>
    have hskip : (c :: rest).length ≤ text.length := hstart ▸ (List.dropWhile_sublist _).length_le
    split at h
    · split at h
      · cases h
      next c' behind' hrest =>
        obtain ⟨-, rfl⟩ := Prod.mk.inj (Option.some.inj h)
        have hbehind : (c' :: behind').length ≤ rest.length := hrest ▸ (List.dropWhile_sublist _).length_le
        simp only [List.length_cons] at hskip hbehind
        omega
    · cases h

/-- The blocks of a definition, as far as they are well formed. -/
def blockTexts (text : List Byte) : List (Option (List Byte)) :=
  if text = [] then []
  else
    match h : nextBlock text with
    | none => [none]
    | some (body, behind) =>
      have := nextBlock_length h
      some body :: blockTexts behind
termination_by text.length

/-- The loop over the blocks, from number `bl` on. -/
def processBlocks (s : State) (slot : Nat) : Nat → List (Option (List Byte)) → Option GrubError × State
  | bl, [] => (none, s.withToggle slot { s.toggleData slot with nrBlocks := bl })
  | _, none :: _ => (some .badArgument, s)
  | bl, some body :: texts =>
    match s.processBlock slot bl 0 (splitVars [] body) with
    | (some err, s) => (some err, s)
    | (none, s) => if texts ≠ [] ∧ bl + 1 = maxBlocks then (some .wontFit, s) else s.processBlocks slot (bl + 1) texts

/-- Find the slot for the key, or the next free one. -/
def takeSlot (s : State) (key : Int) : Option (Nat × State) :=
  match s.getSlotForKey key with
  | some slot => some (slot, s)
  | none =>
    if s.togglesUsed = maxToggles then none
    else
      let slot := s.togglesUsed
      some (slot, { s.withToggle slot { s.toggleData slot with key } with togglesUsed := slot + 1 })

/-- Reset the slot. Only as many blocks are cleared as a block can have variables. -/
def resetSlot (s : State) (slot : Nat) : State :=
  let t := s.toggleData slot
  s.withToggle slot
    { t with nrBlocks := 0, currentBlock := 0, block := fun i => if i < maxVarPerBlock then { t.block i with nrVars := 0 } else t.block i }

/-- `COMMAND_SET`, behind the blanks. -/
def toggleSet (s : State) : List Byte → Option (Option GrubError × State)
  | key :: c :: text =>
    match s.takeSlot key.toInt with
    | none => some (some .wontFit, s)
    | some (slot, s) =>
      match (s.resetSlot slot).processBlocks slot 0 (blockTexts (c :: text)) with
      | (some err, s) => some (some err, s)
      | (none, s) => (s.doBlock slot 0).map fun (_, s) => (none, s)
  | _ => some (some .badArgument, s)

/-! ## The other commands -/

/-- The block of a key is selected: the text behind it, or nothing. -/
def selectOne (s : State) (k : Byte) (text : List Byte) : Option (Option (List Byte) × State) :=
  if text.head? ≠ some 0x3D then some (none, s)
  else
    match safeParseMaxint text.tail, s.findSlot k.toInt with
    | .ok (b, text), some slot =>
      match s.doBlock slot b with
      | none => none
      | some (false, s) => some (none, s)
      | some (true, s) => some (some text, s.setCurrent slot b)
    | _, _ => some (none, s)

/-- `COMMAND_SELECT` -/
def toggleSelect : Nat → State → List Byte → Option (Option GrubError × State)
  | 0, _, _ => none
  | _, s, [] => some (none, s)
  | fuel + 1, s, k :: text =>
    match s.selectOne k text with
    | none => none
    | some (none, s) => some (some .badArgument, s)
    | some (some text, s) => toggleSelect fuel s (text.dropWhile isspace)

/-- The string at the start of a text. -/
def cString (text : List Byte) : List Byte := text.takeWhile fun c => c ≠ 0

/-- `COMMAND_TRIGGER`: the rest of the line is a command, or there is none to run. There is no answer where the
value has no end. -/
def triggered (s : State) (text : List Byte) : Option (Except GrubError (Option (List Byte))) :=
  let name := (cString text).takeWhile fun c => c ≠ 0x20 ∧ c ≠ 0x3D
  match text.drop name.length with
  | c :: d :: rest =>
    if ¬ (c = 0x3D ∧ d = 0x3D) ∨ name = [] then some (.error .badArgument)
    else
      let value := rest.takeWhile fun c => ¬ isspace c
      if value.length = rest.length then none
      else if value = [] then some (.error .badArgument)
      else
        match s.get name with
        | none => some (.error .badArgument)
        | some v => some (.ok (if v = cString value then some ((rest.drop value.length).dropWhile isspace) else none))
  | _ => some (.error .badArgument)

/-- `set`, `select` and `trigger` -/
def setText : List Byte := [0x73, 0x65, 0x74]
def selectText : List Byte := [0x73, 0x65, 0x6C, 0x65, 0x63, 0x74]
def triggerText : List Byte := [0x74, 0x72, 0x69, 0x67, 0x67, 0x65, 0x72]

/-- The command of a line, and what is behind it. There is no answer where the line has no blank. -/
def commandLine (text : List Byte) : Option (List Byte × List Byte) :=
  let a := text.dropWhile (· = 0x20)
  let word := a.takeWhile fun c => ¬ isspace c
  if word.length = a.length then none else some (cString word, (a.drop (word.length + 1)).dropWhile isspace)

/-- `toggle_func`: the error, and the state. -/
def toggleFunc : Nat → State → List Byte → Option (Option GrubError × State)
  | 0, _, _ => none
  | fuel + 1, s, text =>
    match commandLine text with
    | none => none
    | some (command, rest) =>
      if command = setText then s.toggleSet (cString rest)
      else if command = selectText then toggleSelect ((cString rest).length + 1) s (cString rest)
      else if command = triggerText then
        match s.triggered rest with
        | none => none
        | some (.error err) => some (some err, s)
        | some (.ok none) => some (none, s)
        | some (.ok (some text)) => (toggleFunc fuel s text).map fun (_, s) => (none, s)
      else some (some .badArgument, s)

end State

end TrustedGrub.Builtins
