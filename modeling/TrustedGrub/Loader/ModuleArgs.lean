import TrustedGrub.Disk.NameBuffer
import TrustedGrub.Lib.Words
import TrustedGrub.Loader.Linux
import TrustedGrub.Terminfo.Escape

/-!
# The arguments of a module in `load_module`

When `--with-password-dialog` occurs in a module's command line, `load_module` copies the tokens of
the line to `find_args`, asks for a password for each token that is `--with-password-dialog`, and
puts the line together again in `new_cmdline`. An access outside of one of its arrays gives nothing:
what happens from there on is not described. The arrays lie in available memory, and `errnum` is clear.
-/

namespace TrustedGrub.Loader
open Fips180 (Byte)
open Disk (isspace)
open Boot (cString)
open Memory (slice store)
open Terminfo (strlen)
open Words (words pieces pieces_ne_nil)

def dialog : List Byte :=
  [0x2D, 0x2D, 0x77, 0x69, 0x74, 0x68, 0x2D, 0x70, 0x61, 0x73, 0x73, 0x77, 0x6F, 0x72, 0x64, 0x2D, 0x64, 0x69, 0x61, 0x6C, 0x6F, 0x67]

/-- `--password '…'` -/
def passwordOption (pass : List Byte) : List Byte :=
  [0x2D, 0x2D, 0x70, 0x61, 0x73, 0x73, 0x77, 0x6F, 0x72, 0x64, 0x20, 0x27] ++ pass ++ [0x27]

def maxlen : Nat := 1024

/-! ## The tokens -/

/-- `find_args`, `number_args` and `arg_counter`. -/
structure ArgTable where
  findArgs : Nat → Nat → Byte
  numberArgs : Nat
  argCounter : Nat

namespace ArgTable

/-- `find_args[number_args][arg_counter] = c` -/
def put (t : ArgTable) (c : Byte) : Option ArgTable :=
  if t.numberArgs < 10 ∧ t.argCounter < maxlen then
    some { t with findArgs := fun i => if i = t.numberArgs then store (t.findArgs i) t.argCounter [c] else t.findArgs i }
  else none

/-- `find_args[number_args][arg_counter] = c; arg_counter++` -/
def add (t : ArgTable) (c : Byte) : Option ArgTable := (t.put c).map fun t => { t with argCounter := t.argCounter + 1 }

/-- The token ends. -/
def close (t : ArgTable) : Option ArgTable := (t.put 0).map fun t => { t with numberArgs := t.numberArgs + 1, argCounter := 0 }

/-- The loop over the line from `global_counter` on, its NUL included. What follows a space is not looked at. -/
def readArguments : List Byte → ArgTable → Option ArgTable
  | [], t => some t
  | [c], t => if isspace c then none else t.add c
  | c :: d :: arg, t =>
    if isspace c then (t.close.bind fun t => t.add d).bind (readArguments arg) else (t.add c).bind (readArguments (d :: arg))

end ArgTable

/-! ## The new line -/

/-- `bytes` are written from `at` on. -/
def patch (array : List Byte) (pos : Nat) (bytes : List Byte) : Option (List Byte) :=
  if pos + bytes.length ≤ array.length then some (array.take pos ++ bytes ++ array.drop (pos + bytes.length)) else none

/-- `new_cmdline`, `temp`, and how many passwords have been asked for. -/
structure Rewriting where
  newCmdline : List Byte
  temp : List Byte
  asked : Nat

namespace Rewriting

/-- `memcpy (&new_cmdline[grub_strlen (new_cmdline)], …)` -/
def append (r : Rewriting) (bytes : List Byte) : Option Rewriting :=
  (strlen r.newCmdline).bind fun len => (patch r.newCmdline len bytes).map fun line => { r with newCmdline := line }

/-- `sprintf (temp, …)` -/
def sprintf (r : Rewriting) (text : List Byte) : Option Rewriting :=
  (patch r.temp 0 (text ++ [0])).map fun temp => { r with temp := temp }

end Rewriting

section Loop
-- what the user types twice for the n-th question
variable (answers : Nat → List Byte) (t : ArgTable)

/-- The token in row `i`. -/
def rewriteToken (i : Nat) (r : Rewriting) : Option Rewriting :=
  let row := t.findArgs i
  let withQuotationMark := slice row 0 24 = dialog ++ [0x22, 0]
  if slice row 0 23 = dialog ++ [0] ∨ withQuotationMark then
    let pass := answers r.asked
    let text := if withQuotationMark then passwordOption pass ++ [0x22, 0x20] else passwordOption pass ++ [0x20]
    (r.sprintf text).bind fun r => (strlen r.temp).bind fun len => ({ r with asked := r.asked + 1 } : Rewriting).append (r.temp.take len)
  else
    (strlen (slice row 0 maxlen)).bind fun len => (r.append (slice row 0 len)).bind fun r =>
      if i < t.numberArgs - 1 then r.append [0x20] else some r

/-- The rows from `i` on. -/
def rewriteTokens : Nat → Nat → Rewriting → Option Rewriting
  | 0, _, r => some r
  | n + 1, i, r => (rewriteToken answers t i r).bind (rewriteTokens n (i + 1))

end Loop

/-- What `load_module` makes of the array of `arg`, with what is on the stack in the place of `find_args`. -/
def rewriteArguments (answers : Nat → List Byte) (stack : Nat → Nat → Byte) (arg : List Byte) : Option (List Byte) :=
  if (grubStrstr dialog arg).isSome then
    (ArgTable.readArguments (arg ++ [0]) ⟨stack, 0, 0⟩).bind fun t => t.close.bind fun t =>
      (rewriteTokens answers t t.numberArgs 0 ⟨List.replicate arg.length 0, List.replicate arg.length 0, 0⟩).bind fun r =>
        (strlen r.newCmdline).bind fun len => patch (List.replicate (arg.length + 1) 0) 0 (r.newCmdline.take len)
  else some (arg ++ [0])

/-! ## What it is for -/

/-- What a token is replaced by. -/
def replacement (pass token : List Byte) : Option (List Byte) :=
  if token = dialog then some (passwordOption pass)
  else if token = dialog ++ [0x22] then some (passwordOption pass ++ [0x22])
  else none

/-- The tokens with each dialog replaced, from the `k`-th question on. -/
def replaced (answers : Nat → List Byte) : Nat → List (List Byte) → List (List Byte)
  | _, [] => []
  | k, token :: tokens =>
    match replacement (answers k) token with
    | some text => words isspace text ++ replaced answers (k + 1) tokens
    | none => token :: replaced answers k tokens

/-- The line has the same tokens, with the dialogs replaced. -/
def Rewritten (answers : Nat → List Byte) (stack : Nat → Nat → Byte) (arg : List Byte) : Prop :=
  ∃ line, rewriteArguments answers stack arg = some line ∧ words isspace (cString line) = replaced answers 0 (words isspace arg)

/-! ## The table is filled -/

namespace ArgTable

/-- `s` is stored. -/
def filled (t : ArgTable) (s : List Byte) : ArgTable where
  findArgs := fun i => if i = t.numberArgs then store (t.findArgs i) t.argCounter s else t.findArgs i
  numberArgs := t.numberArgs
  argCounter := t.argCounter + s.length

def next (t : ArgTable) : ArgTable := { t with numberArgs := t.numberArgs + 1, argCounter := 0 }

def addAll : List Byte → ArgTable → Option ArgTable
  | [], t => some t
  | c :: s, t => (t.add c).bind (addAll s)

theorem add_eq (t : ArgTable) (c : Byte) : t.add c = if t.numberArgs < 10 ∧ t.argCounter < maxlen then some (t.filled [c]) else none := by
  unfold add put
  split <;> rfl

theorem close_eq (t : ArgTable) : t.close = (t.add 0).map next := by
  unfold close add put
  split <;> rfl

theorem filled_append (t : ArgTable) (s s' : List Byte) : t.filled (s ++ s') = (t.filled s).filled s' := by
  unfold filled
  congr 1
  · funext i
    dsimp only
    split
    · exact Memory.store_append ..
    · rfl
  · rw [List.length_append, Nat.add_assoc]

theorem addAll_append (s s' : List Byte) (t : ArgTable) : addAll (s ++ s') t = (addAll s t).bind (addAll s') := by
  induction s generalizing t with
  | nil => rfl
  | cons c s ih =>
    rw [List.cons_append, addAll, addAll, Option.bind_assoc]
    exact congrArg _ (funext fun t => ih t)

theorem addAll_eq {s : List Byte} (hs : s ≠ []) (t : ArgTable) :
    addAll s t = if t.numberArgs < 10 ∧ t.argCounter + s.length ≤ maxlen then some (t.filled s) else none := by
  induction s generalizing t with
  | nil => exact absurd rfl hs
  | cons c s ih =>
    rw [addAll, add_eq]
    by_cases hroom : t.numberArgs < 10 ∧ t.argCounter < maxlen
    case neg =>
      rw [if_neg hroom, if_neg (by rw [List.length_cons]; omega)]
      rfl
    rw [if_pos hroom, Option.bind_some]
    cases s with
    | nil => exact (if_pos hroom).symm
    | cons d s =>
      rw [ih (List.cons_ne_nil d s), ← filled_append, List.singleton_append]
      have hiff : ((t.filled [c]).numberArgs < 10 ∧ (t.filled [c]).argCounter + (d :: s).length ≤ maxlen) ↔
          t.numberArgs < 10 ∧ t.argCounter + (c :: d :: s).length ≤ maxlen := by
        show (t.numberArgs < 10 ∧ t.argCounter + 1 + (d :: s).length ≤ maxlen) ↔ _
        simp only [List.length_cons]
        omega
      rw [if_congr hiff rfl rfl]

/-- A row, with its NUL. -/
theorem row_eq (s : List Byte) (t : ArgTable) :
    (addAll s t).bind close = if t.numberArgs < 10 ∧ t.argCounter + s.length < maxlen then some (t.filled (s ++ [0])).next else none := by
  have hlast : close = fun t => (addAll [0] t).map next := by
    funext t
    rw [close_eq, addAll]
    cases t.add 0 <;> rfl
  have hrow : (addAll s t).bind close = (addAll (s ++ [0]) t).map next := by
    rw [addAll_append, hlast]
    cases addAll s t <;> rfl
  rw [hrow, addAll_eq (by simp), List.length_append, List.length_singleton]
  by_cases hroom : t.numberArgs < 10 ∧ t.argCounter + s.length < maxlen
  · rw [if_pos hroom, if_pos (by omega)]
    rfl
  · rw [if_neg hroom, if_neg (by omega)]
    rfl

/-- The rows of some pieces. The loop also stores the NUL of the line, in the last one. -/
def rows : List (List Byte) → ArgTable → Option ArgTable
  | [], t => some t
  | w :: ws, t => ((addAll (if ws = [] then w ++ [0] else w) t).bind close).bind (rows ws)

theorem rows_modifyHead (d : Byte) {ps : List (List Byte)} (h : ps ≠ []) (t : ArgTable) :
    rows (ps.modifyHead (d :: ·)) t = (t.add d).bind (rows ps) := by
  cases ps with
  | nil => exact absurd rfl h
  | cons w ws =>
    have hhead : (if ws = [] then (d :: w) ++ [0] else d :: w) = d :: if ws = [] then w ++ [0] else w := by
      split <;> rfl
    rw [List.modifyHead_cons, rows, hhead, addAll, Option.bind_assoc, Option.bind_assoc]
    exact congrArg _ (funext fun t => (Option.bind_assoc ..).symm)

theorem rows_nil (t : ArgTable) : rows [[]] t = (t.add 0).bind close := by
  rw [rows, if_pos rfl, List.nil_append, addAll]
  cases t.add 0 with
  | none => rfl
  | some t => exact Option.bind_fun_some _

/-- The loop stores the pieces of the line. -/
theorem readArguments_eq (arg : List Byte) (t : ArgTable) :
    (readArguments (arg ++ [0]) t).bind close = rows (pieces isspace arg) t := by
  have hnul : isspace 0 = false := by decide
  fun_induction pieces isspace arg generalizing t with
  | case1 => rw [List.nil_append, readArguments, hnul, if_neg (by decide), rows_nil]
  | case2 c hc =>
    rw [List.singleton_append, readArguments, if_pos hc, rows, if_neg (List.cons_ne_nil _ _), Option.bind_assoc, Option.bind_assoc]
    exact congrArg _ (funext fun t => (rows_nil t).symm)
  | case3 c hc =>
    have hrows : rows [[c]] t = (t.add c).bind (rows [[]]) := rows_modifyHead c (List.cons_ne_nil _ _) t
    rw [List.singleton_append, readArguments, if_neg hc, hrows, Option.bind_assoc]
    refine congrArg _ (funext fun t => ?_)
    rw [readArguments, hnul, if_neg (by decide), rows_nil]
  | case4 c d s hc ih =>
    rw [List.cons_append, List.cons_append, readArguments, if_pos hc, rows, if_neg (by simp [pieces_ne_nil]), addAll, Option.bind_some,
      Option.bind_assoc, Option.bind_assoc]
    refine congrArg _ (funext fun t => ?_)
    rw [rows_modifyHead d (pieces_ne_nil s)]
    exact congrArg _ (funext fun t => ih t)
  | case5 c d s hc ih =>
    rw [List.cons_append, List.cons_append, readArguments, if_neg hc, rows_modifyHead c (pieces_ne_nil _), Option.bind_assoc]
    exact congrArg _ (funext fun t => ih t)

/-- Each piece fits in its row; the last one has another NUL. -/
def Slots : List (List Byte) → Prop
  | [] => True
  | w :: ws => (if ws = [] then w ++ [0] else w).length < maxlen ∧ Slots ws

theorem slots_iff {ps : List (List Byte)} :
    Slots ps ↔ (∀ w ∈ ps, w.length < maxlen) ∧ ∀ w ∈ ps.getLast?, w.length + 1 < maxlen := by
  induction ps with
  | nil => simp [Slots]
  | cons w ws ih =>
    rw [Slots, ih, List.forall_mem_cons]
    cases ws with
    | nil =>
      rw [if_pos rfl, List.length_append, List.length_singleton]
      simp only [List.not_mem_nil, IsEmpty.forall_iff, implies_true, and_true, List.getLast?_nil, List.getLast?_singleton, Option.mem_def,
        Option.some.injEq, forall_eq', reduceCtorEq]
      omega
    | cons v vs =>
      rw [if_neg (List.cons_ne_nil v vs), List.getLast?_cons_cons]
      exact and_assoc.symm

theorem length_of_slots {ps : List (List Byte)} (h : Slots ps) : ∀ w ∈ ps, w.length < maxlen := (slots_iff.1 h).1

/-- The rows from `i` on hold the pieces. -/
def Holds (findArgs : Nat → Nat → Byte) : Nat → List (List Byte) → Prop
  | _, [] => True
  | i, w :: ws => slice (findArgs i) 0 (w.length + 1) = w ++ [0] ∧ Holds findArgs (i + 1) ws

theorem filled_row {t : ArgTable} (h : t.argCounter = 0) (w : List Byte) (after : List Byte) :
    slice ((t.filled (w ++ 0 :: after)).next.findArgs t.numberArgs) 0 (w.length + 1) = w ++ [0] := by
  have hcell : (t.filled (w ++ 0 :: after)).next.findArgs t.numberArgs = store (t.findArgs t.numberArgs) 0 (w ++ 0 :: after) := by
    show (if t.numberArgs = t.numberArgs then store (t.findArgs t.numberArgs) t.argCounter (w ++ 0 :: after) else t.findArgs t.numberArgs) =
      _
    rw [if_pos rfl, h]
  have hsplit : w ++ 0 :: after = (w ++ [0]) ++ after := by simp
  rw [hcell, hsplit, Memory.store_append, Memory.slice_store_disjoint (by simp), Memory.slice_store _ _ (by simp)]

theorem filled_frame (t : ArgTable) (s : List Byte) {i : Nat} (h : i < t.numberArgs) : (t.filled s).next.findArgs i = t.findArgs i :=
  if_neg (Nat.ne_of_lt h)

/-- Pieces that fit are in the table. -/
theorem rows_some {ps : List (List Byte)} {t : ArgTable} (hcol : t.argCounter = 0) (hcount : t.numberArgs + ps.length ≤ 10)
    (hslots : Slots ps) :
    ∃ t', rows ps t = some t' ∧ t'.numberArgs = t.numberArgs + ps.length ∧ Holds t'.findArgs t.numberArgs ps ∧
      ∀ i < t.numberArgs, t'.findArgs i = t.findArgs i := by
  induction ps generalizing t with
  | nil => exact ⟨t, rfl, rfl, trivial, fun _ _ => rfl⟩
  | cons w ws ih =>
    obtain ⟨hslot, hslots⟩ := hslots
    rw [List.length_cons] at hcount
    obtain ⟨after, hafter⟩ : ∃ after, (if ws = [] then w ++ [0] else w) ++ [0] = w ++ 0 :: after := by
      by_cases hlast : ws = []
      · exact ⟨[0], by rw [if_pos hlast]; simp⟩
      · exact ⟨[], by rw [if_neg hlast]⟩
    have hnumber : (t.filled (w ++ 0 :: after)).next.numberArgs = t.numberArgs + 1 := rfl
    obtain ⟨t', hrows, hnumber', hholds, hframe⟩ := ih (t := (t.filled (w ++ 0 :: after)).next) rfl (by rw [hnumber]; omega) hslots
    rw [hnumber] at hnumber' hholds hframe
    refine ⟨t', ?_, by rw [hnumber', List.length_cons]; omega, ⟨?_, hholds⟩, fun i hi => ?_⟩
    · rw [rows, row_eq, if_pos ⟨by omega, by omega⟩, hafter, Option.bind_some, hrows]
    · rw [hframe _ (Nat.lt_succ_self _)]
      exact filled_row hcol w after
    · rw [hframe i (by omega)]
      exact filled_frame t _ hi

/-- Nothing is described when they do not. -/
theorem rows_none {ps : List (List Byte)} {t : ArgTable} (hcol : t.argCounter = 0) (h : ¬ (t.numberArgs + ps.length ≤ 10 ∧ Slots ps))
    (ht : t.numberArgs ≤ 10) :
    rows ps t = none := by
  induction ps generalizing t with
  | nil => exact absurd ⟨ht, trivial⟩ h
  | cons w ws ih =>
    rw [rows, row_eq, hcol, Nat.zero_add]
    by_cases hroom : t.numberArgs < 10 ∧ (if ws = [] then w ++ [0] else w).length < maxlen
    · rw [if_pos hroom, Option.bind_some]
      have hnumber : (t.filled ((if ws = [] then w ++ [0] else w) ++ [0])).next.numberArgs = t.numberArgs + 1 := rfl
      apply ih
      · rfl
      · rintro ⟨hcount, hslots⟩
        rw [hnumber] at hcount
        exact h ⟨by rw [List.length_cons]; omega, hroom.2, hslots⟩
      · exact hroom.1
    · rw [if_neg hroom]
      rfl

end ArgTable

/-! ## The line is put together -/

/-- The array of `n` bytes after `text` has been written. -/
def padded (n : Nat) (text : List Byte) : List Byte := text ++ List.replicate (n - text.length) 0

/-- What is written for the pieces, from the `k`-th question on. -/
def joined (answers : Nat → List Byte) : Nat → List (List Byte) → List Byte
  | _, [] => []
  | k, w :: ws =>
    match replacement (answers k) w with
    | some text => text ++ [0x20] ++ joined answers (k + 1) ws
    | none => (if ws = [] then w else w ++ [0x20]) ++ joined answers k ws

theorem strlen_padded {text : List Byte} (h : 0 ∉ text) (n : Nat) :
    strlen (padded n text) = if text.length < n then some text.length else none := by
  unfold padded
  by_cases hlt : text.length < n
  · obtain ⟨k, hk⟩ : ∃ k, n - text.length = k + 1 := ⟨n - text.length - 1, by omega⟩
    rw [hk, List.replicate_succ, Terminfo.strlen_append h, if_pos hlt]
  · rw [Nat.sub_eq_zero_of_le (Nat.le_of_not_lt hlt), List.replicate_zero, List.append_nil, if_neg hlt, Terminfo.strlen_none h]

theorem patch_append (written rest bytes : List Byte) :
    patch (written ++ rest) written.length bytes =
      if bytes.length ≤ rest.length then some (written ++ bytes ++ rest.drop bytes.length) else none := by
  unfold patch
  rw [List.take_left' rfl, List.length_append, ← List.drop_drop, List.drop_left' rfl]
  by_cases h : bytes.length ≤ rest.length
  · rw [if_pos h, if_pos (by omega)]
  · rw [if_neg h, if_neg (by omega)]

theorem patch_padded {n : Nat} {text : List Byte} (h : text.length ≤ n) (bytes : List Byte) :
    patch (padded n text) text.length bytes = if text.length + bytes.length ≤ n then some (padded n (text ++ bytes)) else none := by
  rw [padded, patch_append, List.length_replicate, List.drop_replicate, padded, List.length_append, Nat.sub_sub]
  by_cases hroom : text.length + bytes.length ≤ n
  · rw [if_pos hroom, if_pos (by omega)]
  · rw [if_neg hroom, if_neg (by omega)]

namespace Rewriting

theorem append_eq {n : Nat} {text : List Byte} (htext : 0 ∉ text) (hn : text.length ≤ n) (temp : List Byte) (k : Nat) (bytes : List Byte) :
    append ⟨padded n text, temp, k⟩ bytes =
      if text.length < n ∧ text.length + bytes.length ≤ n then some ⟨padded n (text ++ bytes), temp, k⟩ else none := by
  show ((strlen (padded n text)).bind fun len => (patch (padded n text) len bytes).map fun line => (⟨line, temp, k⟩ : Rewriting)) = _
  rw [strlen_padded htext n]
  by_cases hlt : text.length < n
  · rw [if_pos hlt, Option.bind_some, patch_padded hn bytes]
    by_cases hroom : text.length + bytes.length ≤ n
    · rw [if_pos hroom, if_pos ⟨hlt, hroom⟩]
      rfl
    · rw [if_neg hroom, if_neg fun h => hroom h.2]
      rfl
  · rw [if_neg hlt, if_neg fun h => hlt h.1]
    rfl

theorem sprintf_eq (line temp : List Byte) (k : Nat) (text : List Byte) :
    sprintf ⟨line, temp, k⟩ text =
      if text.length + 1 ≤ temp.length then some ⟨line, text ++ 0 :: temp.drop (text.length + 1), k⟩ else none := by
  have hpatch := patch_append [] temp (text ++ [0])
  rw [List.nil_append, List.length_append, List.length_singleton, List.length_nil] at hpatch
  show ((patch temp 0 (text ++ [0])).map fun temp => (⟨line, temp, k⟩ : Rewriting)) = _
  rw [hpatch]
  split
  · simp
  · rfl

end Rewriting

/-! ### A token -/

section Token
variable {answers : Nat → List Byte} {t : ArgTable} {i k n : Nat} {w text temp : List Byte}

theorem slice_row_iff {row : Nat → Byte} {s : List Byte} (hrow : slice row 0 (w.length + 1) = w ++ [0]) (hw : 0 ∉ w) (hs : 0 ∉ s) :
    slice row 0 (s.length + 1) = s ++ [0] ↔ w = s := by
  constructor
  · intro h
    have hw' := Disk.cString_slice (n := w.length + s.length + 1) hw hrow (by omega)
    have hs' := Disk.cString_slice (n := w.length + s.length + 1) hs h (by omega)
    exact hw'.symm.trans hs'
  · rintro rfl
    exact hrow

theorem dialog_string : 0 ∉ dialog ∧ 0 ∉ dialog ++ [0x22] := by decide

theorem passwordOption_string {pass : List Byte} (h : 0 ∉ pass) : 0 ∉ passwordOption pass := by
  unfold passwordOption
  simpa using h

theorem row_dialog {row : Nat → Byte} (hrow : slice row 0 (w.length + 1) = w ++ [0]) (hw : 0 ∉ w) :
    slice row 0 23 = dialog ++ [0] ↔ w = dialog :=
  slice_row_iff (s := dialog) hrow hw dialog_string.1

theorem row_quoted {row : Nat → Byte} (hrow : slice row 0 (w.length + 1) = w ++ [0]) (hw : 0 ∉ w) :
    slice row 0 24 = dialog ++ [0x22, 0] ↔ w = dialog ++ [0x22] :=
  slice_row_iff (s := dialog ++ [0x22]) hrow hw dialog_string.2

/-- The two forms of the dialog. -/
theorem replacement_some {pass s : List Byte} (hs : replacement pass w = some s) :
    (w = dialog ∧ s = passwordOption pass) ∨ (w = dialog ++ [0x22] ∧ s = passwordOption pass ++ [0x22]) := by
  unfold replacement at hs
  split at hs
  next h => exact .inl ⟨h, (Option.some.inj hs).symm⟩
  next =>
    split at hs
    next h => exact .inr ⟨h, (Option.some.inj hs).symm⟩
    next => cases hs

theorem replacement_none {pass : List Byte} : replacement pass w = none ↔ w ≠ dialog ∧ w ≠ dialog ++ [0x22] := by
  unfold replacement
  split
  next h => simp [h]
  next h =>
    split
    next h' => simp [h']
    next h' => exact iff_of_true rfl ⟨h, h'⟩

theorem replacement_string {pass s : List Byte} (hpass : 0 ∉ pass) (hs : replacement pass w = some s) : 0 ∉ s := by
  have hoption := passwordOption_string hpass
  obtain ⟨-, rfl⟩ | ⟨-, rfl⟩ := replacement_some hs
  · exact hoption
  · simpa using hoption

/-- A dialog. The output is compared with the room that is left in `new_cmdline`, and in `temp`. -/
theorem rewriteToken_dialog (hrow : slice (t.findArgs i) 0 (w.length + 1) = w ++ [0]) (hw : 0 ∉ w) (hpass : 0 ∉ answers k)
    (htext : 0 ∉ text) (hn : text.length ≤ n) (htemp : temp.length = n) {s : List Byte} (hs : replacement (answers k) w = some s) :
    (text.length < n ∧ s.length + 2 ≤ n ∧ text.length + (s.length + 1) ≤ n → ∃ temp', temp'.length = n ∧
      rewriteToken answers t i ⟨padded n text, temp, k⟩ = some ⟨padded n (text ++ (s ++ [0x20])), temp', k + 1⟩) ∧
    (¬ (text.length < n ∧ s.length + 2 ≤ n ∧ text.length + (s.length + 1) ≤ n) →
      rewriteToken answers t i ⟨padded n text, temp, k⟩ = none) := by
  have hstring : 0 ∉ s ++ [0x20] := by simpa using replacement_string hpass hs
  have hform : (slice (t.findArgs i) 0 23 = dialog ++ [0] ∨ slice (t.findArgs i) 0 24 = dialog ++ [0x22, 0]) ∧
      (if slice (t.findArgs i) 0 24 = dialog ++ [0x22, 0] then passwordOption (answers k) ++ [0x22, 0x20] else
        passwordOption (answers k) ++ [0x20]) =
        s ++ [0x20] := by
    have hquoted := row_quoted hrow hw
    obtain ⟨hw', rfl⟩ | ⟨hw', rfl⟩ := replacement_some hs
    · refine ⟨.inl ((row_dialog hrow hw).2 hw'), if_neg fun h => ?_⟩
      exact absurd (hw'.symm.trans (hquoted.1 h)) (by decide)
    · refine ⟨.inr (hquoted.2 hw'), ?_⟩
      rw [if_pos (hquoted.2 hw'), List.append_assoc]
      rfl
  have hstep : rewriteToken answers t i ⟨padded n text, temp, k⟩ =
      (Rewriting.sprintf ⟨padded n text, temp, k⟩ (s ++ [0x20])).bind fun r => (strlen r.temp).bind fun len =>
        ({ r with asked := r.asked + 1 } : Rewriting).append (r.temp.take len) := by
    unfold rewriteToken
    dsimp only
    rw [if_pos hform.1, hform.2]
  have hlength : (s ++ [0x20]).length = s.length + 1 := List.length_append
  rw [hstep, Rewriting.sprintf_eq, hlength, htemp]
  constructor
  · rintro ⟨hlt, hroom, hfits⟩
    refine ⟨(s ++ [0x20]) ++ 0 :: temp.drop (s.length + 1 + 1), ?_, ?_⟩
    · rw [List.length_append, hlength, List.length_cons, List.length_drop]
      omega
    rw [if_pos hroom, Option.bind_some]
    show ((strlen ((s ++ [0x20]) ++ 0 :: temp.drop (s.length + 1 + 1))).bind fun len =>
      (⟨padded n text, _, k + 1⟩ : Rewriting).append (((s ++ [0x20]) ++ 0 :: temp.drop (s.length + 1 + 1)).take len)) = _
    rw [Terminfo.strlen_append hstring, Option.bind_some, List.take_left' rfl, Rewriting.append_eq htext hn, if_pos ⟨hlt, by omega⟩]
  · intro hover
    by_cases hroom : s.length + 1 + 1 ≤ n
    case neg =>
      rw [if_neg hroom]
      rfl
    rw [if_pos hroom, Option.bind_some]
    show ((strlen ((s ++ [0x20]) ++ 0 :: temp.drop (s.length + 1 + 1))).bind fun len =>
      (⟨padded n text, _, k + 1⟩ : Rewriting).append (((s ++ [0x20]) ++ 0 :: temp.drop (s.length + 1 + 1)).take len)) = _
    rw [Terminfo.strlen_append hstring, Option.bind_some, List.take_left' rfl, Rewriting.append_eq htext hn, if_neg (by omega)]

/-- Any other token, with a space unless it is the last. -/
theorem rewriteToken_plain (hrow : slice (t.findArgs i) 0 (w.length + 1) = w ++ [0]) (hw : 0 ∉ w) (hlen : w.length < maxlen)
    (htext : 0 ∉ text) (hn : text.length ≤ n) (hs : replacement (answers k) w = none) :
    rewriteToken answers t i ⟨padded n text, temp, k⟩ =
      if i < t.numberArgs - 1 then
        if text.length + (w.length + 1) ≤ n then some ⟨padded n (text ++ (w ++ [0x20])), temp, k⟩ else none
      else if text.length < n ∧ text.length + w.length ≤ n then some ⟨padded n (text ++ w), temp, k⟩ else none := by
  obtain ⟨hplain, hquoted⟩ := replacement_none.1 hs
  have hcopied : slice (t.findArgs i) 0 w.length = w := by
    rw [Memory.slice_add] at hrow
    exact List.append_inj_left hrow (Memory.slice_length ..)
  have hstrlen : strlen (slice (t.findArgs i) 0 maxlen) = some w.length := by
    obtain ⟨m, hm⟩ := Nat.exists_eq_add_of_lt hlen
    have hsplit : maxlen = w.length + 1 + m := by omega
    rw [hsplit, Memory.slice_add, hrow, List.append_assoc, List.singleton_append, Terminfo.strlen_append hw]
  unfold rewriteToken
  dsimp only
  rw [if_neg (not_or.2 ⟨mt (row_dialog hrow hw).1 hplain, mt (row_quoted hrow hw).1 hquoted⟩), hstrlen, Option.bind_some, hcopied,
    Rewriting.append_eq htext hn]
  by_cases hfits : text.length < n ∧ text.length + w.length ≤ n
  case neg =>
    have hspace : ¬ text.length + (w.length + 1) ≤ n := by omega
    rw [if_neg hfits, if_neg hspace, ite_self]
    rfl
  rw [if_pos hfits, Option.bind_some]
  by_cases hmore : i < t.numberArgs - 1
  case neg => rw [if_neg hmore, if_neg hmore]
  have htext' : 0 ∉ text ++ w := by simp only [List.mem_append, not_or]; exact ⟨htext, hw⟩
  rw [if_pos hmore, if_pos hmore, Rewriting.append_eq htext' (by rw [List.length_append]; exact hfits.2), List.length_append,
    List.append_assoc]
  by_cases hroom : text.length + (w.length + 1) ≤ n
  · rw [if_pos hroom, if_pos (by rw [List.length_singleton]; omega)]
  · rw [if_neg hroom, if_neg (by rw [List.length_singleton]; omega)]

end Token

/-! ### The whole line -/

/-- The new line takes the place of the old one. -/
def replaceLine (n : Nat) (r : Rewriting) : Option (List Byte) :=
  (strlen r.newCmdline).bind fun len => patch (List.replicate (n + 1) 0) 0 (r.newCmdline.take len)

theorem replaceLine_eq {n : Nat} {text : List Byte} (htext : 0 ∉ text) (temp : List Byte) (k : Nat) :
    replaceLine n ⟨padded n text, temp, k⟩ = if text.length < n then some (padded (n + 1) text) else none := by
  unfold replaceLine
  rw [strlen_padded htext n]
  split
  next hlt =>
    have hpatch : patch (padded (n + 1) []) 0 text = _ := patch_padded (Nat.zero_le _) text
    rw [List.length_nil, Nat.zero_add, if_pos (Nat.le_succ_of_le hlt.le), List.nil_append] at hpatch
    have hzeros : padded (n + 1) [] = List.replicate (n + 1) 0 := by
      rw [padded, List.nil_append, List.length_nil, Nat.sub_zero]
    have htake : (padded n text).take text.length = text := List.take_left' rfl
    rw [Option.bind_some, ← hzeros, htake]
    exact hpatch
  next => rfl

section Loop
variable {answers : Nat → List Byte} {t : ArgTable} {n : Nat}

theorem joined_dialog {k : Nat} {w s : List Byte} {ws : List (List Byte)} (hs : replacement (answers k) w = some s) :
    joined answers k (w :: ws) = s ++ [0x20] ++ joined answers (k + 1) ws := by
  rw [joined, hs]

theorem joined_plain {k : Nat} {w : List Byte} {ws : List (List Byte)} (hs : replacement (answers k) w = none) :
    joined answers k (w :: ws) = (if ws = [] then w else w ++ [0x20]) ++ joined answers k ws := by
  rw [joined, hs]

/-- The loop writes what the pieces are replaced by, as long as it is shorter than the array. -/
theorem rewriteTokens_eq (hanswers : ∀ k, 0 ∉ answers k) {ws : List (List Byte)} {i k : Nat} {text temp : List Byte}
    (hholds : ArgTable.Holds t.findArgs i ws) (hnumber : i + ws.length = t.numberArgs) (hws : ∀ w ∈ ws, 0 ∉ w ∧ w.length < maxlen)
    (htext : 0 ∉ text) (hn : text.length ≤ n) (htemp : temp.length = n) :
    (rewriteTokens answers t ws.length i ⟨padded n text, temp, k⟩).bind (replaceLine n) =
      if (text ++ joined answers k ws).length < n then some (padded (n + 1) (text ++ joined answers k ws)) else none := by
  induction ws generalizing i k text temp with
  | nil =>
    rw [List.length_nil, rewriteTokens, Option.bind_some, replaceLine_eq htext, joined, List.append_nil]
  | cons w ws ih =>
    obtain ⟨hrow, hholds⟩ := hholds
    obtain ⟨hw, hlen⟩ := hws w List.mem_cons_self
    have hrest := fun v hv => hws v (List.mem_cons_of_mem _ hv)
    rw [List.length_cons] at hnumber
    rw [List.length_cons, rewriteTokens, Option.bind_assoc]
    rcases hs : replacement (answers k) w with _ | s
    case some =>
      rw [joined_dialog hs]
      obtain ⟨hdone, hover⟩ := rewriteToken_dialog hrow hw (hanswers k) htext hn htemp hs
      have hstring : 0 ∉ text ++ (s ++ [0x20]) := by
        have hs0 := replacement_string (hanswers k) hs
        simp only [List.mem_append, not_or]
        exact ⟨htext, hs0, by decide⟩
      by_cases hroom : text.length < n ∧ s.length + 2 ≤ n ∧ text.length + (s.length + 1) ≤ n
      · obtain ⟨temp', htemp', hstep⟩ := hdone hroom
        rw [hstep, Option.bind_some, ih hholds (by omega) hrest hstring (by rw [List.length_append, List.length_append]; exact hroom.2.2)
          htemp']
        simp only [List.append_assoc]
      · rw [hover hroom, if_neg (by simp only [List.length_append, List.length_singleton]; omega)]
        rfl
    case none =>
      rw [rewriteToken_plain hrow hw hlen htext hn hs, joined_plain hs]
      by_cases hlast : ws = []
      · subst hlast
        have hstring : 0 ∉ text ++ w := by
          simp only [List.mem_append, not_or]
          exact ⟨htext, hw⟩
        rw [List.length_nil] at hnumber
        rw [if_neg (by omega), if_pos rfl, joined, List.append_nil, List.length_append]
        by_cases hroom : text.length < n ∧ text.length + w.length ≤ n
        · rw [if_pos hroom, Option.bind_some, List.length_nil, rewriteTokens, Option.bind_some, replaceLine_eq hstring, List.length_append]
        · rw [if_neg hroom, if_neg (by omega)]
          rfl
      · have hpos := List.length_pos_of_ne_nil hlast
        have hstring : 0 ∉ text ++ (w ++ [0x20]) := by
          simp only [List.mem_append, not_or]
          exact ⟨htext, hw, by decide⟩
        rw [if_pos (by omega), if_neg hlast]
        by_cases hroom : text.length + (w.length + 1) ≤ n
        · rw [if_pos hroom, Option.bind_some, ih hholds (by omega) hrest hstring
            (by rw [List.length_append, List.length_append]; exact hroom) htemp]
          simp only [List.append_assoc]
        · rw [if_neg hroom, if_neg (by simp only [List.length_append, List.length_singleton]; omega)]
          rfl

theorem joined_string (hanswers : ∀ k, 0 ∉ answers k) {ws : List (List Byte)} (hws : ∀ w ∈ ws, 0 ∉ w) (k : Nat) :
    0 ∉ joined answers k ws := by
  induction ws generalizing k with
  | nil => exact List.not_mem_nil
  | cons w ws ih =>
    have hw := hws w List.mem_cons_self
    have hrest := fun k => ih (fun v hv => hws v (List.mem_cons_of_mem _ hv)) k
    rcases hs : replacement (answers k) w with _ | s
    case some =>
      rw [joined_dialog hs]
      simp only [List.mem_append, not_or]
      exact ⟨⟨replacement_string (hanswers k) hs, by decide⟩, hrest (k + 1)⟩
    case none =>
      rw [joined_plain hs, List.mem_append, not_or]
      refine ⟨?_, hrest k⟩
      split
      · exact hw
      · simp only [List.mem_append, not_or]
        exact ⟨hw, by decide⟩

/-- What the line comes to. -/
theorem rewriteArguments_iff (hanswers : ∀ k, 0 ∉ answers k) {arg : List Byte} (harg : 0 ∉ arg) (stack : Nat → Nat → Byte)
    (hdialog : (grubStrstr dialog arg).isSome) {line : List Byte} :
    rewriteArguments answers stack arg = some line ↔
      ((pieces isspace arg).length ≤ 10 ∧ ArgTable.Slots (pieces isspace arg)) ∧
        (joined answers 0 (pieces isspace arg)).length < arg.length ∧
          line = padded (arg.length + 1) (joined answers 0 (pieces isspace arg)) := by
  have hread :
      ((ArgTable.readArguments (arg ++ [0]) ⟨stack, 0, 0⟩).bind ArgTable.close) = ArgTable.rows (pieces isspace arg) ⟨stack, 0, 0⟩ :=
    ArgTable.readArguments_eq arg _
  have hzeros : padded arg.length [] = List.replicate arg.length 0 := by
    rw [padded, List.nil_append, List.length_nil, Nat.sub_zero]
  unfold rewriteArguments
  rw [if_pos hdialog, ← Option.bind_assoc, hread]
  by_cases hfits : (pieces isspace arg).length ≤ 10 ∧ ArgTable.Slots (pieces isspace arg)
  · obtain ⟨t, hrows, hnumber, hholds, -⟩ := ArgTable.rows_some (t := ⟨stack, 0, 0⟩) rfl (by simpa using hfits.1) hfits.2
    have hlengths := ArgTable.length_of_slots hfits.2
    have hpieces : ∀ w ∈ pieces isspace arg, 0 ∉ w ∧ w.length < maxlen :=
      fun w hw => ⟨fun h => harg (Words.mem_of_mem_pieces hw h), hlengths w hw⟩
    have hloop : (rewriteTokens answers t _ 0 ⟨padded arg.length [], List.replicate arg.length 0, 0⟩).bind (replaceLine arg.length) = _ :=
      rewriteTokens_eq hanswers hholds hnumber.symm hpieces List.not_mem_nil (Nat.zero_le _) List.length_replicate
    rw [hzeros, List.nil_append] at hloop
    have hcount : t.numberArgs = (pieces isspace arg).length := by
      rw [hnumber]
      exact Nat.zero_add _
    rw [hrows, Option.bind_some, hcount]
    show (rewriteTokens answers t _ 0 _).bind (replaceLine arg.length) = _ ↔ _
    rw [hloop]
    by_cases hroom : (joined answers 0 (pieces isspace arg)).length < arg.length
    · rw [if_pos hroom, Option.some_inj]
      exact ⟨fun h => ⟨hfits, hroom, h.symm⟩, fun h => h.2.2.symm⟩
    · rw [if_neg hroom]
      exact iff_of_false (by simp) fun h => hroom h.2.1
  · rw [ArgTable.rows_none rfl (by simpa using hfits) (Nat.zero_le _)]
    exact iff_of_false (by simp) fun h => hfits h.1

end Loop

end TrustedGrub.Loader
