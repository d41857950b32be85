import Mathlib.Algebra.Group.Nat.Defs
import Mathlib.Data.List.Basic
import Mathlib.Tactic.Common

/-!
# Numerals

The number that a list of digits stands for, the most significant one first. It is read
one digit at a time, with a division that finds an overflow before the step that would
cause it, and written by repeated division. The digits may be characters of a text, of
any alphabet.
-/

namespace Numeral

/-- The number of `ds` behind the digits that stand for `acc`. -/
def valueFrom (b acc : Nat) (ds : List Nat) : Nat := ds.foldl (fun acc d => acc * b + d) acc

def value (b : Nat) (ds : List Nat) : Nat := valueFrom b 0 ds

/-- Digit by digit, unless a step would go beyond `limit`. -/
def accumulate (b limit : Nat) : Nat → List Nat → Option Nat
  | acc, [] => some acc
  | acc, d :: ds => if (limit - d) / b < acc then none else accumulate b limit (acc * b + d) ds

/-- The digits of `n`, the least significant one first; there is at least one. -/
def written (b : Nat) : Nat → Nat → List Nat
  | 0, _ => []
  | fuel + 1, n => n % b :: if n / b = 0 then [] else written b fuel (n / b)

section Text
variable {C : Type} (digit : C → Option Nat)

/-- The longest run of digits that a text begins with. -/
def digits : List C → List Nat
  | [] => []
  | c :: s =>
    match digit c with
    | none => []
    | some d => d :: digits s

/-- The text behind them. -/
def behind : List C → List C
  | [] => []
  | c :: s =>
    match digit c with
    | none => c :: s
    | some _ => behind s

end Text

/-! ## Reading -/

section Reading
variable {b limit acc d : Nat} {ds : List Nat}

@[simp] theorem valueFrom_nil : valueFrom b acc [] = acc := rfl

@[simp] theorem valueFrom_cons : valueFrom b acc (d :: ds) = valueFrom b (acc * b + d) ds := rfl

theorem valueFrom_append (ds es : List Nat) : valueFrom b acc (ds ++ es) = valueFrom b (valueFrom b acc ds) es :=
  List.foldl_append

/-- Another digit does not make the number smaller. -/
theorem le_valueFrom (hb : 0 < b) : acc ≤ valueFrom b acc ds := by
  induction ds generalizing acc with
  | nil => exact Nat.le_refl acc
  | cons d ds ih =>
    have hstep : acc ≤ acc * b + d := Nat.le_add_right_of_le (Nat.le_mul_of_pos_right acc hb)
    exact Nat.le_trans hstep ih

/-- The division tells exactly when the step goes too far. -/
theorem div_lt_iff (hb : 0 < b) (hd : d ≤ limit) : (limit - d) / b < acc ↔ limit < acc * b + d := by
  rw [Nat.div_lt_iff_lt_mul hb]
  omega

/-- Overflow is found exactly when the whole number goes beyond the limit. -/
theorem accumulate_eq (hb : 0 < b) (hd : ∀ d ∈ ds, d ≤ limit) (hacc : acc ≤ limit) :
    accumulate b limit acc ds = if valueFrom b acc ds ≤ limit then some (valueFrom b acc ds) else none := by
  induction ds generalizing acc with
  | nil => rw [accumulate, valueFrom_nil, if_pos hacc]
  | cons d ds ih =>
    have hfirst : d ≤ limit := hd d List.mem_cons_self
    rw [accumulate, valueFrom_cons]
    by_cases hover : (limit - d) / b < acc
    · have hbeyond := (div_lt_iff hb hfirst).1 hover
      have hgrows : acc * b + d ≤ valueFrom b (acc * b + d) ds := le_valueFrom hb
      rw [if_pos hover, if_neg (by omega)]
    · have hwithin : acc * b + d ≤ limit := by
        rw [div_lt_iff hb hfirst] at hover
        omega
      rw [if_neg hover]
      exact ih (fun d h => hd d (List.mem_cons_of_mem _ h)) hwithin

end Reading

/-! ## Writing -/

section Writing
variable {b fuel n : Nat}

/-- Every digit is below the base. -/
theorem lt_of_mem_written (hb : 0 < b) : ∀ d ∈ written b fuel n, d < b := by
  induction fuel generalizing n with
  | zero => exact fun d h => absurd h List.not_mem_nil
  | succ fuel ih =>
    intro d h
    rw [written] at h
    rcases List.mem_cons.1 h with rfl | h
    · exact Nat.mod_lt n hb
    · split at h
      · exact absurd h List.not_mem_nil
      · exact ih d h

theorem written_ne_nil (hfuel : 0 < fuel) : written b fuel n ≠ [] := by
  cases fuel with
  | zero => exact absurd hfuel (Nat.lt_irrefl 0)
  | succ fuel => exact List.cons_ne_nil _ _

/-- What has been written is read back. -/
theorem value_written (hfuel : 0 < fuel) (hn : n < b ^ fuel) : value b (written b fuel n).reverse = n := by
  induction fuel generalizing n with
  | zero => exact absurd hfuel (Nat.lt_irrefl 0)
  | succ fuel ih =>
    have hsplit := Nat.div_add_mod' n b
    rw [written, List.reverse_cons, value, valueFrom_append, valueFrom_cons, valueFrom_nil]
    by_cases hlast : n / b = 0
    · rw [if_pos hlast, List.reverse_nil, valueFrom_nil]
      rw [hlast] at hsplit
      exact hsplit
    · have hmore : n / b < b ^ fuel := by
        rw [Nat.pow_succ] at hn
        exact Nat.div_lt_of_lt_mul (Nat.mul_comm _ b ▸ hn)
      have hleft : 0 < fuel := by
        cases fuel with
        | zero => exact absurd (Nat.lt_one_iff.1 hmore) hlast
        | succ k => exact Nat.succ_pos k
      rw [if_neg hlast, show valueFrom b 0 (written b fuel (n / b)).reverse = n / b from ih hleft hmore]
      exact hsplit

end Writing

/-! ## Texts -/

section Texts
variable {C : Type} {digit : C → Option Nat} {c : C} {d : Nat} {s rest : List C}

theorem digits_of_none (h : digit c = none) : digits digit (c :: s) = [] := by rw [digits, h]

theorem digits_of_some (h : digit c = some d) : digits digit (c :: s) = d :: digits digit s := by rw [digits, h]

theorem behind_of_none (h : digit c = none) : behind digit (c :: s) = c :: s := by rw [behind, h]

theorem behind_of_some (h : digit c = some d) : behind digit (c :: s) = behind digit s := by rw [behind, h]

/-- No digits end at the beginning of `rest`. -/
theorem digits_of_head (h : ∀ c ∈ rest.head?, digit c = none) : digits digit rest = [] ∧ behind digit rest = rest := by
  cases rest with
  | nil => exact ⟨rfl, rfl⟩
  | cons c s => exact ⟨digits_of_none (h c rfl), behind_of_none (h c rfl)⟩

/-- A text of digits, and where they end. -/
theorem digits_append {shown : Nat → C} {ds : List Nat} (hshow : ∀ d ∈ ds, digit (shown d) = some d)
    (h : ∀ c ∈ rest.head?, digit c = none) : digits digit (ds.map shown ++ rest) = ds ∧ behind digit (ds.map shown ++ rest) = rest := by
  induction ds with
  | nil => exact digits_of_head h
  | cons d ds ih =>
    have hfirst := hshow d List.mem_cons_self
    obtain ⟨hdigits, hbehind⟩ := ih fun d hd => hshow d (List.mem_cons_of_mem _ hd)
    rw [List.map_cons, List.cons_append, digits_of_some hfirst, behind_of_some hfirst, hdigits, hbehind]
    exact ⟨rfl, rfl⟩

theorem mem_digits (h : d ∈ digits digit s) : ∃ c ∈ s, digit c = some d := by
  induction s with
  | nil => exact absurd h List.not_mem_nil
  | cons c s ih =>
    cases hc : digit c with
    | none => exact absurd (digits_of_none hc ▸ h) List.not_mem_nil
    | some e =>
      rw [digits_of_some hc] at h
      rcases List.mem_cons.1 h with rfl | h
      · exact ⟨c, List.mem_cons_self, hc⟩
      · obtain ⟨c', hmem, hc'⟩ := ih h
        exact ⟨c', List.mem_cons_of_mem _ hmem, hc'⟩

end Texts

end Numeral
