import TrustedGrub.Boot.Checkfile
import Mathlib.Data.List.TakeWhile

/-!
# The name buffer of `grub_open`

`grub_open` copies the name to a local buffer of 1500 bytes, and appends to it there for each
retry. `grub_strcpy` and `grub_memmove` copy nothing while `errnum` is set, and a driver cuts
the name at a component while it looks for that one.
-/

namespace TrustedGrub.Disk
open Fips180 (Byte)
open Boot (cString)
open Memory (slice store)

variable {σ ι : Type}

@[irreducible] def bufSize : Nat := 1500

theorem bufSize_eq : bufSize = 1500 := by unfold bufSize; rfl

/-- The memory, the names that have been tried, and the globals. -/
structure Buffered (σ ι : Type) where
  mem : Nat → Byte
  tried : List (List Byte)
  state : State σ ι

/-- What `grub_open` comes to. It loops for ever when the name is too long; what comes after a write behind the buffer is not described. -/
inductive Opening (σ ι : Type) where
  | stuck
  | overrun
  | returned (result : Bool) (b : Buffered σ ι)

/-- What is done after a pass. -/
def Pass.elim {α : Type} (returned : Bool → State σ ι → α) (retry : State σ ι → α) : Pass σ ι → α
  | .returned result st => returned result st
  | .retry st => retry st

section Model
variable (p : Platform σ ι) (left : List Byte → State σ ι → Option Nat) (fn name : Nat) (orig : List Byte)

namespace Buffered

/-- `grub_memmove (fn, filename_orig, len)`. -/
def memmove (b : Buffered σ ι) (len : Nat) : Option (Buffered σ ι) :=
  if memcheck b.state fn len then
    if b.state.errnum = .none then
      if len ≤ bufSize then some { b with mem := store b.mem fn (slice b.mem name len) } else none
    else some b
  else some { b with state := { b.state with errnum := .wontFit } }

/-- The bytes go to `fn[i]` and on. -/
def write (b : Buffered σ ι) (i : Nat) (bytes : List Byte) : Option (Buffered σ ι) :=
  if i + bytes.length ≤ bufSize then some { b with mem := store b.mem (fn + i) bytes } else none

/-- The string in the buffer. -/
def filename (b : Buffered σ ι) : List Byte := cString (slice b.mem fn bufSize)

/-- `grub_strcpy (fn, filename_orig)`, and the NUL once more. -/
def start (b : Buffered σ ι) : Option (Buffered σ ι) := (b.memmove fn name (orig.length + 1)).bind fun b => b.write fn orig.length [0]

/-- The slash, unless the name ends with one. -/
def slash (b : Buffered σ ι) : List Byte := if b.mem (name + orig.length - 1) ≠ 0x2F then [0x2F] else []

/-- The next name. -/
def next (trial : List Byte) (b : Buffered σ ι) : Option (Buffered σ ι) :=
  (b.memmove fn name orig.length).bind fun b => b.write fn orig.length (b.slash name orig ++ trial ++ [0])

/-- A pass over the name has failed. The driver may have left a NUL in it. -/
def failed (b : Buffered σ ι) (st : State σ ι) : Buffered σ ι where
  mem :=
    match left (b.filename fn) st with
    | some k => if k < (b.filename fn).length then store b.mem (fn + k) [0] else b.mem
    | none => b.mem
  tried := b.tried ++ [b.filename fn]
  state := st

/-- A pass has come to the end of `grub_open`. -/
def ended (b : Buffered σ ι) (result : Bool) (st : State σ ι) : Opening σ ι :=
  .returned result { b with tried := b.tried ++ [b.filename fn], state := st }

/-- The passes from `restart:`. -/
def passes : List (List Byte) → Buffered σ ι → Opening σ ι
  | [], b => (openName p b.state (b.filename fn)).elim (b.ended fn) fun st => .returned false (b.failed left fn st)
  | trial :: trials, b => (openName p b.state (b.filename fn)).elim (b.ended fn) fun st =>
    ((b.failed left fn st).next fn name orig trial).elim .overrun (passes trials)

end Buffered

/-- `grub_open`, with its buffer at `fn` and the caller's name at `name`. -/
def grubOpenBuffered (mem : Nat → Byte) (st : State σ ι) : Opening σ ι :=
  if bufSize < orig.length then .stuck
  else
    match Buffered.start fn name orig ⟨mem, [], st⟩ with
    | none => .overrun
    | some b => b.passes p left fn name orig tryFilenames

end Model

/-! ## Names in order -/

section Statement
variable (p : Platform σ ι) (left : List Byte → State σ ι → Option Nat) (fn name : Nat) (orig : List Byte) (mem : Nat → Byte)
    (st : State σ ι)

/-- The caller's name is a string outside of the buffer. -/
structure Held : Prop where
  string : 0 ∉ orig
  held : slice mem name (orig.length + 1) = orig ++ [0]
  apart : name + (orig.length + 1) ≤ fn ∨ fn + bufSize ≤ name

/-- The name with a trial behind a slash. -/
def Alternative (trial filename : List Byte) : Prop :=
  filename = orig ++ 0x2F :: trial ∧ orig.getLast? ≠ some 0x2F ∨ filename = orig ++ trial ∧ (orig.getLast? = some 0x2F ∨ orig = [])

/-- The name, or it with `menu.lst` or `m` behind a slash. -/
def StandsFor (filename : List Byte) : Prop := filename = orig ∨ ∃ trial ∈ tryFilenames, Alternative orig trial filename

/-- All memory but the buffer is as it was. -/
def Kept (b : Buffered σ ι) : Prop := ∀ a, a < fn ∨ fn + bufSize ≤ a → b.mem a = mem a

/-- Nothing is written behind the buffer, the caller's name included, at most three names are tried, and a file that is opened is there
under the name or one of its alternatives. -/
def Opening.Sound : Opening σ ι → Prop
  | .stuck => True
  | .overrun => False
  | .returned result b => Kept fn mem b ∧ slice b.mem name (orig.length + 1) = orig ++ [0] ∧ b.tried.length ≤ 3 ∧
      (result = true → ∃ filename s, b.tried.getLast? = some filename ∧ StandsFor orig filename ∧
        openName p s filename = .returned true b.state)

/-- `grub_strcpy` copies. -/
def NameCopied : Prop := st.errnum = .none ∧ memcheck st fn (orig.length + 1 : Nat) = true

instance : Decidable (NameCopied fn orig st) := inferInstanceAs (Decidable (_ ∧ _))

/-- What the first pass finds in the buffer. -/
def firstName : List Byte := if NameCopied fn orig st then orig else cString (slice (store mem (fn + orig.length) [0]) fn bufSize)

/-- The longest of the names that are tried, with its NUL. -/
def longest : Nat := orig.length + (if orig.getLast? = some 0x2F then 0 else 1) + 9

/-- The name is refused, or it fits in the buffer with its NUL, and with what is appended to it, unless there is no retry. -/
def Fits : Prop :=
  bufSize < orig.length ∨ orig.length < bufSize ∧
    (longest orig ≤ bufSize ∨ ∃ result s, openName p st (firstName fn orig mem st) = .returned result s)

/-- Where a pass over the name fails and another one follows, the driver has left the name as it was. -/
def Restored : List (List Byte) → List Byte → State σ ι → Prop
  | [], _, _ => True
  | trial :: trials, filename, st => ∀ s, openName p st filename = .retry s →
    left filename s = none ∧ ∀ next, Alternative orig trial next → Restored trials next s

/-- The name is copied, and no driver that fails in the passes of the call leaves it cut for the next one. -/
structure Whole : Prop where
  copies : NameCopied fn orig st
  restored : Restored p left orig tryFilenames orig st

end Statement

section Proofs
variable {p : Platform σ ι} {left : List Byte → State σ ι → Option Nat} {fn name : Nat} {orig : List Byte} {mem : Nat → Byte}
    {st : State σ ι}
variable {b b' : Buffered σ ι}

theorem Kept.store {i : Nat} {bytes : List Byte} {tried : List (List Byte)} (h : Kept fn mem b) (hfits : i + bytes.length ≤ bufSize) :
    Kept fn mem { b with mem := store b.mem (fn + i) bytes, tried := tried, state := st } := by
  intro a ha
  rw [← h a ha]
  rcases ha with hlow | hhigh
  · exact Memory.store_of_lt (by omega)
  · exact Memory.store_of_ge (by omega)

/-- The caller's name is still there. -/
theorem Held.kept (h : Held fn name orig mem) (hkept : Kept fn mem b) : slice b.mem name (orig.length + 1) = orig ++ [0] := by
  rw [← h.held]
  apply Memory.slice_congr
  intro x hlow hhigh
  apply hkept
  have := h.apart
  omega

theorem Held.copied (h : Held fn name orig mem) (hkept : Kept fn mem b) : slice b.mem name orig.length = orig := by
  have hslice := h.kept hkept
  rw [Memory.slice_add] at hslice
  exact List.append_inj_left hslice (Memory.slice_length ..)

/-- A string that was stored with its NUL is read. -/
theorem cString_slice {m : Nat → Byte} {text : List Byte} {n : Nat} (hstring : 0 ∉ text)
    (hstored : slice m fn (text.length + 1) = text ++ [0])
    (hn : text.length + 1 ≤ n) : cString (slice m fn n) = text := by
  obtain ⟨k, rfl⟩ := Nat.exists_eq_add_of_le hn
  have hall : text.takeWhile (fun c => decide (c ≠ 0)) = text := by
    rw [List.takeWhile_eq_self_iff]
    intro c hc
    exact decide_eq_true fun hzero => hstring (hzero ▸ hc)
  rw [cString, Memory.slice_add, hstored, List.append_assoc, List.takeWhile_append, hall, if_pos rfl]
  simp

/-- A pass begins by clearing `errnum`. -/
theorem openName_congr {s : State σ ι} (h : s.restarted = st.restarted) (filename : List Byte) :
    openName p s filename = openName p st filename := by
  unfold openName
  rw [h]

theorem Restored.congr {s : State σ ι} {trials : List (List Byte)} {filename : List Byte}
    (hrestored : Restored p left orig trials filename st)
    (hstate : s.restarted = st.restarted) : Restored p left orig trials filename s := by
  cases trials with
  | nil => trivial
  | cons trial trials =>
    unfold Restored at hrestored ⊢
    rwa [openName_congr hstate]

/-- `grub_memmove` copies, or does nothing to the memory. -/
theorem memmove_mem (b : Buffered σ ι) (fn name : Nat) {len : Nat} (hlen : len ≤ bufSize) :
    ∃ b', b.memmove fn name len = some b' ∧ b'.tried = b.tried ∧ b'.state.restarted = b.state.restarted ∧
      b'.mem = if b.state.errnum = .none ∧ memcheck b.state fn len = true then store b.mem fn (slice b.mem name len) else b.mem := by
  unfold Buffered.memmove
  by_cases hcheck : memcheck b.state fn len = true
  · by_cases herror : b.state.errnum = .none
    · simp [hcheck, herror, hlen]
    · simp [hcheck, herror]
  · simp [hcheck, State.restarted]

theorem memmove_kept (hkept : Kept fn mem b) {len : Nat} (hlen : len ≤ bufSize) {c : Prop} [Decidable c]
    (hmem : b'.mem = if c then store b.mem fn (slice b.mem name len) else b.mem) : Kept fn mem b' := by
  intro a ha
  rw [← hkept a ha, hmem]
  split
  · rcases ha with hlow | hhigh
    · exact Memory.store_of_lt hlow
    · exact Memory.store_of_ge (by rw [Memory.slice_length]; omega)
  · rfl

theorem slash_eq (h : Held fn name orig mem) (hkept : Kept fn mem b) (hsome : orig ≠ []) :
    b.slash name orig = if orig.getLast? = some 0x2F then [] else [0x2F] := by
  have hpos := List.length_pos_iff.2 hsome
  have hlast : some (b.mem (name + orig.length - 1)) = orig.getLast? := by
    rw [List.getLast?_eq_getElem?, ← h.copied hkept, Memory.slice_length, Memory.slice_getElem?, if_pos (by omega),
      Nat.add_sub_assoc hpos]
  unfold Buffered.slash
  rw [← hlast]
  by_cases hslash : b.mem (name + orig.length - 1) = 0x2F
  · rw [if_neg (not_not.2 hslash), if_pos (congrArg some hslash)]
  · rw [if_pos hslash, if_neg fun heq => hslash (Option.some.inj heq)]

/-- What is appended to the name. -/
theorem slash_length (h : Held fn name orig mem) (hkept : Kept fn mem b) :
    orig.length + (b.slash name orig).length + 9 ≤ max (longest orig) 10 ∧
      (orig ≠ [] → orig.length + (b.slash name orig).length + 9 = longest orig) := by
  by_cases hnil : orig = []
  · refine ⟨?_, fun hsome => absurd hnil hsome⟩
    have hone : (b.slash name orig).length ≤ 1 := by
      unfold Buffered.slash
      split <;> simp
    simp only [hnil, List.length_nil] at hone ⊢
    omega
  · have hequal : orig.length + (b.slash name orig).length + 9 = longest orig := by
      rw [slash_eq h hkept hnil, longest]
      split <;> rfl
    exact ⟨by omega, fun _ => hequal⟩

theorem tryFilenames_length : ∀ trial ∈ tryFilenames, trial.length ≤ 8 ∧ 0 ∉ trial := by decide

/-- What is stored behind a text follows it. -/
theorem slice_behind {m : Nat → Byte} {text bytes : List Byte} (h : slice m fn text.length = text) :
    slice (store m (fn + text.length) bytes) fn (text.length + bytes.length) = text ++ bytes := by
  rw [Memory.slice_add, Memory.slice_store_disjoint (.inl (Nat.le_refl _)), h, Memory.slice_store _ _ rfl]

theorem cString_behind {m : Nat → Byte} {text bytes : List Byte} {n : Nat} (htext : 0 ∉ text) (hbytes : 0 ∉ bytes)
    (h : slice m fn text.length = text) (hn : text.length + (bytes ++ [0]).length ≤ n) :
    cString (slice (store m (fn + text.length) (bytes ++ [0])) fn n) = text ++ bytes := by
  have hlength : (text ++ bytes).length + 1 = text.length + (bytes ++ [0]).length := by
    simp only [List.length_append, List.length_singleton]
    omega
  apply cString_slice
  · rw [List.mem_append, not_or]
    exact ⟨htext, hbytes⟩
  · rw [hlength, slice_behind h, List.append_assoc]
  · omega

/-- What is in the buffer before the first pass. -/
theorem start_fits (st : State σ ι) (h : Held fn name orig mem) (hfits : orig.length < bufSize) :
    ∃ b, Buffered.start fn name orig ⟨mem, [], st⟩ = some b ∧ Kept fn mem b ∧ b.tried = [] ∧ b.state.restarted = st.restarted ∧
      b.filename fn = firstName fn orig mem st ∧ (NameCopied fn orig st → slice b.mem fn orig.length = orig) := by
  obtain ⟨b, hmove, htried, hstate, hmoved⟩ := memmove_mem ⟨mem, [], st⟩ fn name (show orig.length + 1 ≤ bufSize by omega)
  have hmem : b.mem = if NameCopied fn orig st then store mem fn (slice mem name (orig.length + 1)) else mem := hmoved
  have hkept : Kept fn mem b := memmove_kept (fun _ _ => rfl) hfits hmoved
  have hcopied : slice (store mem fn (slice mem name (orig.length + 1))) fn orig.length = orig := by
    rw [h.held, Memory.store_append, Memory.slice_store_disjoint (.inl (Nat.le_refl _)), Memory.slice_store _ _ rfl]
  have hwrite : b.write fn orig.length [0] = some { b with mem := store b.mem (fn + orig.length) [0] } := if_pos hfits
  refine ⟨{ b with mem := store b.mem (fn + orig.length) [0] }, ?_, ?_, htried, hstate, ?_, ?_⟩
  · rw [Buffered.start, hmove]
    exact hwrite
  · exact hkept.store hfits
  · unfold Buffered.filename
    dsimp only
    by_cases hname : NameCopied fn orig st
    · rw [firstName, if_pos hname, hmem, if_pos hname]
      exact (cString_behind h.string List.not_mem_nil hcopied hfits).trans (List.append_nil orig)
    · rw [firstName, if_neg hname, hmem, if_neg hname]
  · intro hname
    dsimp only
    rw [Memory.slice_store_disjoint (.inl (Nat.le_refl _)), hmem, if_pos hname, hcopied]

/-- A name as long as the buffer is not refused, but its NUL is behind the buffer. -/
theorem start_overrun (hlong : orig.length = bufSize) : Buffered.start fn name orig ⟨mem, [], st⟩ = none := by
  have hwrite (b : Buffered σ ι) : b.write fn orig.length [0] = none := by
    rw [Buffered.write, if_neg]
    rw [hlong, List.length_singleton]
    omega
  unfold Buffered.start
  cases Buffered.memmove fn name ⟨mem, [], st⟩ (orig.length + 1) with
  | none => rfl
  | some b => exact hwrite b

theorem failed_kept (st : State σ ι) (hkept : Kept fn mem b) : Kept fn mem (b.failed left fn st) := by
  have hshort : (b.filename fn).length ≤ bufSize := by
    refine (List.takeWhile_prefix _).length_le.trans ?_
    rw [Memory.slice_length]
  unfold Buffered.failed
  cases left (b.filename fn) st with
  | none => exact hkept
  | some k =>
    dsimp only
    split
    next hk =>
      apply hkept.store
      rw [List.length_singleton]
      omega
    next => exact hkept

theorem alternative_slash (h : Held fn name orig mem) (hkept : Kept fn mem b) (trial : List Byte) :
    Alternative orig trial (orig ++ (b.slash name orig ++ trial)) := by
  by_cases hnil : orig = []
  · unfold Buffered.slash
    split
    · exact .inl ⟨rfl, by simp [hnil]⟩
    · exact .inr ⟨rfl, .inr hnil⟩
  · rw [slash_eq h hkept hnil]
    split
    next hslash => exact .inr ⟨rfl, .inl hslash⟩
    next hslash => exact .inl ⟨rfl, hslash⟩

/-- The next name is put together in the buffer. -/
theorem next_fits (h : Held fn name orig mem) (hkept : Kept fn mem b) (hroom : longest orig ≤ bufSize) {trial : List Byte}
    (htrial : trial ∈ tryFilenames) :
    ∃ b', b.next fn name orig trial = some b' ∧ Kept fn mem b' ∧ b'.tried = b.tried ∧ b'.state.restarted = b.state.restarted ∧
      (slice b.mem fn orig.length = orig → slice b'.mem fn orig.length = orig ∧ Alternative orig trial (b'.filename fn)) := by
  obtain ⟨hshort, hstring⟩ := tryFilenames_length trial htrial
  have hlong : orig.length + 9 ≤ bufSize := by
    unfold longest at hroom
    omega
  obtain ⟨b₁, hmove, htried, hstate, hmem⟩ := memmove_mem b fn name (show orig.length ≤ bufSize by omega)
  have hkept₁ : Kept fn mem b₁ := memmove_kept hkept (by omega) hmem
  have hslash := (slash_length h hkept₁).1
  have hfits : orig.length + (b₁.slash name orig ++ trial ++ [0]).length ≤ bufSize := by
    have hsmall : 10 ≤ bufSize := by
      rw [bufSize_eq]
      decide
    simp only [List.length_append, List.length_singleton]
    omega
  have hwrite : b₁.write fn orig.length (b₁.slash name orig ++ trial ++ [0]) =
      some { b₁ with mem := store b₁.mem (fn + orig.length) (b₁.slash name orig ++ trial ++ [0]) } := if_pos hfits
  refine ⟨{ b₁ with mem := store b₁.mem (fn + orig.length) (b₁.slash name orig ++ trial ++ [0]) }, ?_, hkept₁.store hfits, htried, hstate,
    fun hcopied => ?_⟩
  · rw [Buffered.next, hmove]
    exact hwrite
  have hcopied₁ : slice b₁.mem fn orig.length = orig := by
    rw [hmem]
    split
    · rw [h.copied hkept, Memory.slice_store _ _ rfl]
    · exact hcopied
  refine ⟨(Memory.slice_store_disjoint (.inl (Nat.le_refl _))).trans hcopied₁, ?_⟩
  have hzero : 0 ∉ b₁.slash name orig ++ trial := by
    unfold Buffered.slash
    rw [List.mem_append, not_or]
    refine ⟨?_, hstring⟩
    split <;> decide
  rw [Buffered.filename, cString_behind h.string hzero hcopied₁ hfits]
  exact alternative_slash h hkept₁ trial

theorem next_overrun (h : Held fn name orig mem) (hkept : Kept fn mem b) (hlong : bufSize < longest orig) (hlen : orig.length < bufSize) :
    b.next fn name orig [0x6D, 0x65, 0x6E, 0x75, 0x2E, 0x6C, 0x73, 0x74] = none := by
  obtain ⟨b₁, hmove, -, -, hmem⟩ := memmove_mem b fn name (Nat.le_of_lt hlen)
  have hsome : orig ≠ [] := by
    rintro rfl
    rw [bufSize_eq] at hlong
    exact absurd hlong (by decide)
  have hslash := (slash_length h (memmove_kept hkept (Nat.le_of_lt hlen) hmem)).2 hsome
  rw [Buffered.next, hmove, Option.bind_some, Buffered.write, if_neg]
  simp only [List.length_append, List.length_cons, List.length_nil]
  omega

theorem passes_returned {trials : List (List Byte)} {result : Bool} {s : State σ ι}
    (hpass : openName p b.state (b.filename fn) = .returned result s) :
    b.passes p left fn name orig trials = b.ended fn result s := by
  cases trials with
  | nil =>
    unfold Buffered.passes
    rw [hpass]
    rfl
  | cons =>
    unfold Buffered.passes
    rw [hpass]
    rfl

theorem failed_restored {s : State σ ι} (hrestored : left (b.filename fn) s = none) : (b.failed left fn s).mem = b.mem := by
  unfold Buffered.failed
  rw [hrestored]

/-- With room for the longest name, each retry stays in the buffer. -/
theorem passes_fits (h : Held fn name orig mem) (hroom : longest orig ≤ bufSize) {trials : List (List Byte)} :
    ∀ {b : Buffered σ ι}, (∀ trial ∈ trials, trial ∈ tryFilenames) → Kept fn mem b →
    ∃ result b', b.passes p left fn name orig trials = .returned result b' ∧ Kept fn mem b' ∧
      b'.tried.length ≤ b.tried.length + trials.length + 1 ∧
      (result = true → ∃ filename s, b'.tried.getLast? = some filename ∧ openName p s filename = .returned true b'.state ∧
        (Restored p left orig trials (b.filename fn) b.state → slice b.mem fn orig.length = orig → StandsFor orig (b.filename fn) →
          StandsFor orig filename)) := by
  induction trials with
  | nil =>
    intro b _ hkept
    cases hpass : openName p b.state (b.filename fn) with
    | returned result s =>
      refine ⟨result, _, passes_returned hpass, hkept, by simp, ?_⟩
      rintro rfl
      exact ⟨b.filename fn, b.state, by simp, hpass, fun _ _ hlisted => hlisted⟩
    | retry s =>
      refine ⟨false, b.failed left fn s, ?_, failed_kept _ hkept, by simp [Buffered.failed], ?_⟩
      · unfold Buffered.passes
        rw [hpass]
        rfl
      · exact fun hfalse => absurd hfalse Bool.false_ne_true
  | cons trial trials ih =>
    intro b htrials hkept
    cases hpass : openName p b.state (b.filename fn) with
    | returned result s =>
      refine ⟨result, _, passes_returned hpass, hkept, by simp, ?_⟩
      rintro rfl
      exact ⟨b.filename fn, b.state, by simp, hpass, fun _ _ hlisted => hlisted⟩
    | retry s =>
      obtain ⟨b₁, hnext, hkept₁, htried, hstate, hlisted⟩ := next_fits h (failed_kept s hkept) hroom (htrials trial List.mem_cons_self)
      obtain ⟨result, b', hresult, hkept', hcount, hopened⟩ := ih (fun other hother => htrials other (List.mem_cons_of_mem _ hother)) hkept₁
      refine ⟨result, b', ?_, hkept', ?_, fun hopen => ?_⟩
      · unfold Buffered.passes
        rw [hpass, Pass.elim, hnext]
        exact hresult
      · rw [htried] at hcount
        simp only [Buffered.failed, List.length_append, List.length_cons, List.length_nil] at hcount ⊢
        omega
      · obtain ⟨filename, t, hlast, hname, hlist⟩ := hopened hopen
        refine ⟨filename, t, hlast, hname, fun hrestored hcopied hfirst => ?_⟩
        obtain ⟨hleft, hrest⟩ := hrestored s hpass
        rw [failed_restored hleft] at hlisted
        obtain ⟨hcopied₁, halternative⟩ := hlisted hcopied
        exact hlist ((hrest _ halternative).congr hstate) hcopied₁ (.inr ⟨trial, htrials trial List.mem_cons_self, halternative⟩)

/-- **The names that `grub_open` tries stay in its buffer** just where the name is refused or fits with its NUL, and with what is appended
to it, if there is a retry; and where the name is copied and left as it is, a file that is opened is one of those the name stands for. -/
theorem grubOpenBuffered_sound (h : Held fn name orig mem) :
    (grubOpenBuffered p left fn name orig mem st ≠ .overrun ↔ Fits p fn orig mem st) ∧
      (Fits p fn orig mem st → Whole p left fn orig st → (grubOpenBuffered p left fn name orig mem st).Sound p fn name orig mem) := by
  unfold grubOpenBuffered
  by_cases hlong : bufSize < orig.length
  · rw [if_pos hlong]
    exact ⟨iff_of_true (fun heq => by cases heq) (.inl hlong), fun _ _ => trivial⟩
  rw [if_neg hlong]
  by_cases hfull : orig.length = bufSize
  · have hunfit : ¬ Fits p fn orig mem st := by
      unfold Fits
      omega
    rw [start_overrun hfull]
    exact ⟨iff_of_false (not_not.2 rfl) hunfit, fun hfits => absurd hfits hunfit⟩
  have hlt : orig.length < bufSize := by omega
  obtain ⟨b, hstart, hkept, htried, hstate, hfilename, hcopied⟩ := start_fits st h hlt
  have hfirst := openName_congr (p := p) hstate (b.filename fn)
  rw [hstart]
  dsimp only
  cases hpass : openName p b.state (b.filename fn) with
  | returned result s =>
    have hfits : Fits p fn orig mem st := .inr ⟨hlt, .inr ⟨result, s, by rw [← hfilename, ← hfirst, hpass]⟩⟩
    rw [passes_returned hpass]
    refine ⟨iff_of_true (fun heq => by cases heq) hfits, fun _ hwhole => ⟨hkept, h.kept hkept, ?_, ?_⟩⟩
    · simp [htried]
    · rintro rfl
      refine ⟨b.filename fn, b.state, by simp, .inl ?_, hpass⟩
      rw [hfilename, firstName, if_pos hwhole.copies]
  | retry s =>
    by_cases hroom : longest orig ≤ bufSize
    · obtain ⟨result, b', hresult, hkept', hcount, hopened⟩ := passes_fits h hroom (fun _ htrial => htrial) hkept
      rw [hresult]
      refine ⟨iff_of_true (fun heq => by cases heq) (.inr ⟨hlt, .inl hroom⟩), fun _ hwhole => ⟨hkept', h.kept hkept', ?_, fun hopen => ?_⟩⟩
      · rwa [htried] at hcount
      · obtain ⟨filename, t, hlast, hname, hlisted⟩ := hopened hopen
        have hcalled : b.filename fn = orig := by rw [hfilename, firstName, if_pos hwhole.copies]
        have hrestored : Restored p left orig tryFilenames (b.filename fn) b.state := hcalled ▸ hwhole.restored.congr hstate
        exact ⟨filename, t, hlast, hlisted hrestored (hcopied hwhole.copies) (.inl hcalled), hname⟩
    · have hoverrun : b.passes p left fn name orig tryFilenames = .overrun := by
        unfold tryFilenames Buffered.passes
        rw [hpass, Pass.elim, next_overrun h (failed_kept _ hkept) (by omega) hlt]
        rfl
      have hunfit : ¬ Fits p fn orig mem st := by
        rintro (hlong' | ⟨-, hroom' | ⟨result, t, hreturned⟩⟩)
        · exact hlong hlong'
        · exact hroom hroom'
        · rw [← hfilename, ← hfirst, hpass] at hreturned
          cases hreturned
      rw [hoverrun]
      exact ⟨iff_of_false (not_not.2 rfl) hunfit, fun hfits => absurd hfits hunfit⟩

end Proofs

/-! ## Names at fixed places -/

/-- The memory with the caller's name at 0x50000, and `bytes` in the buffer at 0x60000. -/
def withName (orig bytes : List Byte) : Nat → Byte := store (store (fun _ => 0) 0x60000 bytes) 0x50000 (orig ++ [0])

def opensAs (filename : List Byte) : Opening σ ι → Bool
  | .returned result b => result && b.tried == [filename]
  | _ => false

/-- `/f` is there, and is opened. -/
theorem grubOpenBuffered_slash_f : (grubOpenBuffered diskWithF (fun _ _ => none) 0x60000 0x50000 [0x2F, 0x66] (withName [0x2F, 0x66] [])
    (.atBoot () () 640 65536)).Sound diskWithF 0x60000 0x50000 [0x2F, 0x66] (withName [0x2F, 0x66] []) := by
  have hheld : Held 0x60000 0x50000 [0x2F, 0x66] (withName [0x2F, 0x66] []) := by
    refine ⟨by decide, Memory.slice_store _ _ rfl, .inl ?_⟩
    decide
  have hfits : Fits diskWithF 0x60000 [0x2F, 0x66] (withName [0x2F, 0x66] []) (.atBoot () () 640 65536) := by
    unfold Fits
    rw [bufSize_eq]
    exact .inr ⟨by decide, .inl (by decide)⟩
  exact (grubOpenBuffered_sound hheld).2 hfits ⟨⟨rfl, by decide⟩, fun _ _ => ⟨rfl, fun _ _ _ _ => ⟨rfl, fun _ _ => trivial⟩⟩⟩

/-- The NUL of a name of 1500 bytes is behind the buffer. With an error pending, `/g` is not copied, and what the buffer held is opened. -/
theorem name_overruns :
    grubOpenBuffered diskWithF (fun _ _ => none) 0x60000 0x50000 (List.replicate 1500 0x61) (withName (List.replicate 1500 0x61) [])
    (.atBoot () () 640 65536) = .overrun ∧
    opensAs [0x2F, 0x66] (grubOpenBuffered diskWithF (fun _ _ => none) 0x60000 0x50000 [0x2F, 0x67] (withName [0x2F, 0x67] [0x2F, 0x66])
      { State.atBoot () () 640 65536 with errnum := .read }) = true := by
  refine ⟨?_, by decide +kernel⟩
  have hlength : (List.replicate 1500 (0x61 : Byte)).length = bufSize := by rw [List.length_replicate, bufSize_eq]
  unfold grubOpenBuffered
  rw [start_overrun hlength, if_neg (by omega)]

end TrustedGrub.Disk
