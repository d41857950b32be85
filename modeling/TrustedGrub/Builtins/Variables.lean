import TrustedGrub.Disk.BlockName
import TrustedGrub.Lib.Memory

/-!
# Variables

The names and values of `set` and `toggle` are strings in `variable_store`, which is given out from the
front and never given back. A pointer into it is an offset.
-/

namespace TrustedGrub.Builtins
open Fips180 (Byte)
open Disk (isspace)
open Memory (slice store)

def variableStoreSize : Nat := 1024
def variablesMax : Nat := 30

/-- An element of `variable_list`. -/
structure Variable where
  name : Option Nat
  value : Option Nat

structure Vars where
  variableStore : Nat → Byte
  /-- `variable_store_actpos` -/
  actpos : Nat
  list : Nat → Variable

namespace Vars

/-- The string that a pointer points to. -/
def str (s : Vars) (p : Nat) : List Byte := (slice s.variableStore p (variableStoreSize - p)).takeWhile fun c => c ≠ 0

/-- `var_get_index`, where `none` is -1. -/
def getIndex (s : Vars) (var : List Byte) : Option Nat :=
  if var = [] then none else (List.range variablesMax).find? fun i => (s.list i).name.any fun a => s.str a = var

/-- The string that `var_get` points to. -/
def get (s : Vars) (var : List Byte) : Option (List Byte) := (s.getIndex var).bind fun i => (s.list i).value.map s.str

/-- `var_alloc_mem` -/
def allocMem (s : Vars) (len : Nat) : Option (Nat × Vars) :=
  if variableStoreSize < s.actpos + len ∨ len = 0 then none else some (s.actpos, { s with actpos := s.actpos + len })

/-- `var_get_free_var` -/
def getFreeVar (s : Vars) : Option Nat := (List.range variablesMax).find? fun i => (s.list i).name.isNone

/-- `grub_strcpy` to the store. -/
def strcpy (s : Vars) (p : Nat) (text : List Byte) : Vars := { s with variableStore := store s.variableStore p (text ++ [0]) }

/-- A copy of a string in a new place. -/
def copy (s : Vars) (text : List Byte) : Option (Nat × Vars) := (s.allocMem (text.length + 1)).map fun (p, s) => (p, s.strcpy p text)

def setName (s : Vars) (i a : Nat) : Vars := { s with list := Function.update s.list i { s.list i with name := some a } }

def setValue (s : Vars) (i : Nat) (val : Option Nat) : Vars := { s with list := Function.update s.list i { s.list i with value := val } }

/-- Some sanity check of a name. -/
def saneName (name : List Byte) : Bool := name.all fun c => c ≠ 0x28 ∧ c ≠ 0x29 ∧ c ≠ 0x20

/-- A new variable, without a value. -/
def newVar (s : Vars) (name : List Byte) : Option (Nat × Vars) :=
  if ¬ saneName name then none
  else do
    let i ← s.getFreeVar
    let (a, s) ← s.copy name
    some (i, s.setName i a)

/-- `var_set_no_copy`: whether it returns 0, and the variables. A pointer to elsewhere is `none`. -/
def setNoCopy (s : Vars) (name : List Byte) (val : Option Nat) : Bool × Vars :=
  if val.all fun p => variableStoreSize ≤ p then (false, s)
  else
    match s.getIndex name with
    | some i => (true, s.setValue i val)
    | none =>
      match s.newVar name with
      | none => (false, s)
      | some (i, s) => (true, s.setValue i val)

/-- `var_set`, where the value has been parsed. There is no answer where it takes the length of a value that
is not there. -/
def set (s : Vars) (name value : List Byte) : Option (Bool × Vars) :=
  match s.getIndex name with
  | none =>
    match s.newVar name with
    | none => some (false, s)
    | some (i, s) =>
      match s.copy value with
      | none => some (false, s)
      | some (a, s) => some (true, s.setValue i (some a))
  | some i =>
    match (s.list i).value with
    | none => none
    | some p =>
      -- The value is replaced, or the old one is dropped.
      if value.length ≤ (s.str p).length then some (true, s.strcpy p value)
      else
        match s.copy value with
        | none => some (false, s)
        | some (a, s) => some (true, s.setValue i (some a))

end Vars

end TrustedGrub.Builtins
