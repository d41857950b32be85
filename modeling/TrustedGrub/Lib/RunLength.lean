import Mathlib.Data.List.Induction
import Mathlib.Tactic.Common

/-!
# Runs of consecutive numbers

A sequence of numbers modulo `w` is kept as a list of runs. A number that comes next after the
last run makes that run longer; any other number starts a run of its own.
-/

namespace RunLength

/-- The numbers `start`, `start + 1`, … -/
structure Run where
  start : Nat
  count : Nat
  /-- How many numbers come before. -/
  first : Nat

variable (w : Nat)

def Run.items (r : Run) : List Nat := (List.range r.count).map fun k => (r.start + k) % w

/-- The number that makes the run longer. -/
def Run.next (r : Run) : Nat := (r.start + r.count) % w

/-- One more number. The last run comes first. -/
def add : List Run → Nat → List Run
  | [], x => [⟨x, 1, 0⟩]
  | r :: rs, x => if r.next w = x then { r with count := r.count + 1 } :: rs else ⟨x, 1, r.first + r.count⟩ :: r :: rs

/-- The runs of a sequence. -/
def runs (xs : List Nat) : List Run := xs.foldl (add w) []

/-- The sequence of some runs. -/
def items (rs : List Run) : List Nat := rs.reverse.flatMap (Run.items w)

/-- The runs lie one behind the other, and hold `n` numbers. -/
def Tiles : List Run → Nat → Prop
  | [], n => n = 0
  | r :: rs, n => 0 < r.count ∧ r.first + r.count = n ∧ Tiles rs r.first

variable {w} {rs : List Run} {r : Run} {x n : Nat}

theorem items_cons (r : Run) (rs : List Run) : items w (r :: rs) = items w rs ++ r.items w := by
  rw [items, List.reverse_cons, List.flatMap_append, List.flatMap_singleton]
  rfl

theorem Run.items_longer (r : Run) : ({ r with count := r.count + 1 } : Run).items w = r.items w ++ [r.next w] := by
  rw [Run.items, List.range_succ, List.map_append]
  rfl

theorem Run.items_one (hx : x < w) (n : Nat) : (⟨x, 1, n⟩ : Run).items w = [x] := by
  show [(x + 0) % w] = [x]
  rw [Nat.add_zero, Nat.mod_eq_of_lt hx]

theorem add_items (hx : x < w) (rs : List Run) : items w (add w rs x) = items w rs ++ [x] := by
  cases rs with
  | nil =>
    rw [add, items_cons, Run.items_one hx]
  | cons r rs =>
    rw [add]
    split
    next hnext =>
      rw [items_cons, items_cons, Run.items_longer, hnext, List.append_assoc]
    next hother =>
      rw [items_cons, Run.items_one hx]

theorem Tiles.add (h : Tiles rs n) (x : Nat) : Tiles (add w rs x) (n + 1) := by
  cases rs with
  | nil =>
    cases h
    exact ⟨Nat.one_pos, rfl, rfl⟩
  | cons r rs =>
    obtain ⟨hpos, hsum, hrest⟩ := h
    rw [RunLength.add]
    split
    · exact ⟨Nat.succ_pos _, congrArg (· + 1) hsum, hrest⟩
    · exact ⟨Nat.one_pos, congrArg (· + 1) hsum, hpos, rfl, hrest⟩

theorem runs_concat (xs : List Nat) (x : Nat) : runs w (xs ++ [x]) = add w (runs w xs) x := by
  rw [runs, List.foldl_append]
  rfl

/-- **The runs of a sequence are that sequence.** -/
theorem runs_items (xs : List Nat) (h : ∀ x ∈ xs, x < w) : items w (runs w xs) = xs := by
  induction xs using List.reverseRecOn with
  | nil => rfl
  | append_singleton xs x ih =>
    rw [runs_concat, add_items (h x (List.mem_append_right _ (List.mem_singleton_self x))),
      ih fun y hy => h y (List.mem_append_left _ hy)]

theorem runs_tiles (xs : List Nat) : Tiles (runs w xs) xs.length := by
  induction xs using List.reverseRecOn with
  | nil => rfl
  | append_singleton xs x ih =>
    rw [runs_concat, List.length_append]
    exact ih.add x

theorem Tiles.items_length (h : Tiles rs n) : (items w rs).length = n := by
  induction rs generalizing n with
  | nil => exact h.symm
  | cons r rs ih =>
    obtain ⟨-, hsum, hrest⟩ := h
    rw [items_cons, List.length_append, ih hrest, Run.items, List.length_map, List.length_range]
    exact hsum

end RunLength
