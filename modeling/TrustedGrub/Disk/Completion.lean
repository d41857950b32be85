import TrustedGrub.Lib.CommonPrefix
import TrustedGrub.Lib.StringEdit
import TrustedGrub.Menu.Config

/-!
# The unique string of a completion

`print_a_completion` of `disk_io.c`, called with one candidate after the other. The string that
it keeps is narrowed in place to the longest common prefix of the candidates.
-/

namespace TrustedGrub.Disk
open Fips180 (Byte Word)
open Memory (store)
open StringPool (Holds)
open CommonPrefix (IsLongest common)
open Menu (grubStrcmp)

/-- The memory, with the buffer at `uniqueString`, the globals, and what has been printed. -/
structure Completion where
  mem : Nat → Byte
  uniqueString : Nat
  unique : Word
  doCompletion : Bool
  printed : List Byte

/-- The name is `"."` or `".."`. -/
def isDots (name : List Byte) : Bool := grubStrcmp name [0x2E] = .eq ∨ grubStrcmp name [0x2E, 0x2E] = .eq

/-- The loop that looks for the mismatch and strips what is from there on. -/
def strip (mem : Nat → Byte) (buf : Nat) : List Byte → Nat → Byte
  | [] => store mem buf [0]
  | c :: name => if mem buf ≠ 0 ∧ mem buf = c then strip mem (buf + 1) name else store mem buf [0]

/-- `print_a_completion`. -/
def Completion.printACompletion (s : Completion) (name : List Byte) : Completion :=
  if isDots name then s
  else
    let s :=
      if s.doCompletion then
        if s.unique = 0 then { s with mem := store s.mem s.uniqueString (name ++ [0]) }
        else { s with mem := strip s.mem s.uniqueString name }
      else { s with printed := s.printed ++ 0x20 :: name }
    { s with unique := s.unique + 1 }

/-- The calls for some candidates. -/
def Completion.printCompletions (s : Completion) (names : List (List Byte)) : Completion := names.foldl printACompletion s

/-- The candidates that are counted. -/
def counted (names : List (List Byte)) : List (List Byte) := names.filter fun name => !isDots name

/-! ## One candidate -/

variable {mem : Nat → Byte} {buf k : Nat} {p name : List Byte} {names names' seen : List (List Byte)} {s : Completion}

theorem strip_below (h : k < buf) : strip mem buf name k = mem k := by
  induction name generalizing buf with
  | nil => exact Memory.store_of_lt h
  | cons c name ih =>
    rw [strip]
    split_ifs
    · exact ih (Nat.lt_succ_of_lt h)
    · exact Memory.store_of_lt h

theorem holds_stripped (mem : Nat → Byte) (buf : Nat) : Holds 0 (store mem buf [0]) buf [] :=
  StringPool.holds_store mem buf List.not_mem_nil

theorem strip_holds (h : Holds 0 mem buf p) : Holds 0 (strip mem buf name) buf (common p name) := by
  induction name generalizing buf p with
  | nil =>
    have hempty : common p [] = [] := by cases p <;> rfl
    rw [strip, hempty]
    exact holds_stripped mem buf
  | cons c name ih =>
    cases p with
    | nil =>
      have hend : ¬ (mem buf ≠ 0 ∧ mem buf = c) := fun hc => hc.1 h.end_cell
      rw [strip, if_neg hend]
      exact holds_stripped mem buf
    | cons d p =>
      obtain ⟨hcell, hd, hrest⟩ := h.head
      rw [strip, common]
      by_cases hdc : d = c
      · rw [if_pos ⟨hcell ▸ hd, hcell.trans hdc⟩, if_pos hdc]
        apply StringPool.holds_cons _ hd (ih hrest)
        rw [strip_below (Nat.lt_succ_self buf), hcell]
      · rw [if_neg fun hc => hdc (hcell.symm.trans hc.2), if_neg hdc]
        exact holds_stripped mem buf

/-! ## All the candidates -/

/-- What is kept after the candidates that have been counted. -/
structure Narrowed (seen : List (List Byte)) (s : Completion) : Prop where
  completing : s.doCompletion = true
  unique : s.unique = .ofNat 32 seen.length
  held : seen ≠ [] → ∃ p, Holds 0 s.mem s.uniqueString p ∧ IsLongest seen p

theorem Narrowed.start (hcompletion : s.doCompletion = true) (hunique : s.unique = 0) : Narrowed [] s :=
  ⟨hcompletion, hunique, fun h => absurd rfl h⟩

/-- The counter has not come round to zero. -/
theorem Narrowed.unique_eq_zero (h : Narrowed seen s) (hlt : seen.length < 2 ^ 32) : s.unique = 0 ↔ seen = [] := by
  rw [h.unique]
  constructor
  · intro hzero
    have hnat := congrArg BitVec.toNat hzero
    rw [BitVec.toNat_ofNat, Nat.mod_eq_of_lt hlt] at hnat
    exact List.length_eq_zero_iff.1 hnat
  · intro hnil
    rw [hnil]
    rfl

theorem Narrowed.count (h : Narrowed seen s) (name : List Byte) :
    s.unique + 1 = .ofNat 32 (seen ++ [name]).length := by
  rw [h.unique, List.length_append, List.length_singleton, BitVec.ofNat_add]
  rfl

theorem Narrowed.call (h : Narrowed seen s) (hlt : seen.length < 2 ^ 32) (hname : 0 ∉ name) (hcounted : isDots name = false) :
    Narrowed (seen ++ [name]) (s.printACompletion name) := by
  unfold Completion.printACompletion
  simp only [hcounted, Bool.false_eq_true, if_false, h.completing, if_true]
  by_cases hfirst : s.unique = 0
  · obtain rfl := (h.unique_eq_zero hlt).1 hfirst
    rw [if_pos hfirst]
    refine ⟨rfl, h.count name, fun _ => ⟨name, ?_, ?_⟩⟩
    · exact StringPool.holds_store s.mem s.uniqueString hname
    · exact CommonPrefix.isLongest_singleton name
  · obtain ⟨p, hheld, hlongest⟩ := h.held fun hnil => hfirst ((h.unique_eq_zero hlt).2 hnil)
    rw [if_neg hfirst]
    refine ⟨rfl, h.count name, fun _ => ⟨common p name, ?_, ?_⟩⟩
    · exact strip_holds hheld
    · exact hlongest.narrow name

theorem Narrowed.run (h : Narrowed seen s) (hlt : (seen ++ counted names).length < 2 ^ 32) (hnames : ∀ name ∈ names, 0 ∉ name) :
    Narrowed (seen ++ counted names) (s.printCompletions names) := by
  induction names generalizing seen s with
  | nil => simpa [counted, Completion.printCompletions] using h
  | cons name names ih =>
    obtain ⟨hname, hrest⟩ := List.forall_mem_cons.1 hnames
    rw [Completion.printCompletions, List.foldl_cons]
    cases hdots : isDots name with
    | true =>
      have hskip : s.printACompletion name = s := by simp [Completion.printACompletion, hdots]
      have hcounted : counted (name :: names) = counted names := by simp [counted, hdots]
      rw [hcounted] at hlt ⊢
      rw [hskip]
      exact ih h hlt hrest
    | false =>
      have hcounted : seen ++ counted (name :: names) = seen ++ [name] ++ counted names := by simp [counted, hdots]
      rw [hcounted] at hlt ⊢
      apply ih _ hlt hrest
      apply h.call _ hname hdots
      rw [List.length_append, List.length_append] at hlt
      omega

theorem narrowed_printCompletions (hcompletion : s.doCompletion = true) (hunique : s.unique = 0)
    (hlt : (counted names).length < 2 ^ 32) (hnames : ∀ name ∈ names, 0 ∉ name) :
    Narrowed (counted names) (s.printCompletions names) := by
  rw [← List.nil_append (counted names)] at hlt ⊢
  exact (Narrowed.start hcompletion hunique).run hlt hnames

/-- After all the calls the unique string is the longest common prefix of the candidates that
are counted, and `unique` is their number. In another order they leave the same. -/
theorem printCompletions_longest (hcompletion : s.doCompletion = true) (hunique : s.unique = 0)
    (hnames : ∀ name ∈ names, 0 ∉ name) (hfew : (counted names).length < 2 ^ 31) :
    (s.printCompletions names).unique.toInt = (counted names).length ∧
      (counted names ≠ [] →
        ∃ p, Holds 0 (s.printCompletions names).mem (s.printCompletions names).uniqueString p ∧ IsLongest (counted names) p ∧
          ∀ names', names'.Perm names →
            (s.printCompletions names').unique = (s.printCompletions names).unique ∧
              Holds 0 (s.printCompletions names').mem (s.printCompletions names').uniqueString p) := by
  have hrun {names' : List (List Byte)} (hperm : names'.Perm names) : Narrowed (counted names') (s.printCompletions names') := by
    have hlength := (hperm.filter fun name => !isDots name).length_eq
    apply narrowed_printCompletions hcompletion hunique
    · unfold counted at hfew ⊢
      omega
    · exact fun name hname => hnames name (hperm.mem_iff.1 hname)
  have hself := hrun (List.Perm.refl names)
  constructor
  · have hnat : (BitVec.ofNat 32 (counted names).length).toNat = (counted names).length := by
      rw [BitVec.toNat_ofNat, Nat.mod_eq_of_lt (by omega)]
    rw [hself.unique, BitVec.toInt_eq_toNat_of_lt (by omega), hnat]
  · intro hne
    obtain ⟨p, hheld, hlongest⟩ := hself.held hne
    refine ⟨p, hheld, hlongest, fun names' hperm => ?_⟩
    have hother := hrun hperm
    have hcounted : (counted names').Perm (counted names) := hperm.filter _
    constructor
    · rw [hother.unique, hself.unique, hcounted.length_eq]
    · obtain ⟨q, hheld', hlongest'⟩ := hother.held fun hnil => hne (by simpa [hnil] using hcounted)
      rwa [hlongest.unique (hlongest'.congr fun name => hcounted.mem_iff.symm)]

/-- `"menu.lst"`, `"."`, and `"mem"`. -/
def sampleNames : List (List Byte) := [[0x6D, 0x65, 0x6E, 0x75, 0x2E, 0x6C, 0x73, 0x74], [0x2E], [0x6D, 0x65, 0x6D]]

def completing : Completion := ⟨fun _ => 0, 0x10000, 0, true, []⟩

theorem printCompletions_longest_sample :
    (completing.printCompletions sampleNames).unique.toInt = (counted sampleNames).length ∧
      (counted sampleNames ≠ [] →
        ∃ p, Holds 0 (completing.printCompletions sampleNames).mem (completing.printCompletions sampleNames).uniqueString p ∧
          IsLongest (counted sampleNames) p ∧
          ∀ names', names'.Perm sampleNames →
            (completing.printCompletions names').unique = (completing.printCompletions sampleNames).unique ∧
              Holds 0 (completing.printCompletions names').mem (completing.printCompletions names').uniqueString p) := by
  apply printCompletions_longest
  · rfl
  · rfl
  · decide
  · decide

/-- The counter is a signed one, and too many candidates make it negative. -/
theorem unique_overflows :
    (counted (List.replicate (2 ^ 31) [0x61])).length = 2 ^ 31 ∧
      (completing.printCompletions (List.replicate (2 ^ 31) [0x61])).unique.toInt = -2 ^ 31 := by
  have hcounted (n : Nat) : counted (List.replicate n [0x61]) = List.replicate n [0x61] := by
    unfold counted
    apply List.filter_eq_self.2
    intro name hname
    rw [List.eq_of_mem_replicate hname]
    decide
  have hlength : (counted (List.replicate (2 ^ 31) [0x61])).length = 2 ^ 31 := by rw [hcounted, List.length_replicate]
  have hrun : Narrowed (counted (List.replicate (2 ^ 31) [0x61])) (completing.printCompletions (List.replicate (2 ^ 31) [0x61])) := by
    apply narrowed_printCompletions
    · rfl
    · rfl
    · rw [hlength]
      decide
    · intro name hname
      rw [List.eq_of_mem_replicate hname]
      decide
  refine ⟨hlength, ?_⟩
  rw [hrun.unique, hlength]
  decide

end TrustedGrub.Disk
