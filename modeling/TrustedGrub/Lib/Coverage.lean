import Mathlib.Data.Nat.Find
import Mathlib.Order.Lattice
import Mathlib.Tactic.Common

/-!
# How far ranges reach

Half-open ranges in any order, which may overlap. From a place on they cover a run, and the end
of the run is found by scanning: wherever a range contains the place, go to the end of the range.
A scan that gets no further has found it.
-/

namespace Coverage

section Order
variable {α : Type} [LinearOrder α] {ranges ranges' some_ranges : List (α × α)} {range : α × α} {bottom top top' x : α}

def Covered (ranges : List (α × α)) (x : α) : Prop := ∃ range ∈ ranges, range.1 ≤ x ∧ x < range.2

/-- Everything from `bottom` on is covered as far as `top`. -/
structure Reached (ranges : List (α × α)) (bottom top : α) : Prop where
  le : bottom ≤ top
  covered : ∀ x, bottom ≤ x → x < top → Covered ranges x

/-- The run from `bottom` on ends at `top`. -/
structure IsRun (ranges : List (α × α)) (bottom top : α) : Prop extends Reached ranges bottom top where
  stops : ¬ Covered ranges top

def extend (top : α) (range : α × α) : α := if range.1 ≤ top ∧ top < range.2 then range.2 else top

def scan (ranges : List (α × α)) (top : α) : α := ranges.foldl extend top

theorem Covered.mono (hsub : ∀ range ∈ ranges, range ∈ ranges') (h : Covered ranges x) : Covered ranges' x := by
  obtain ⟨range, hrange, hin⟩ := h
  exact ⟨range, hsub range hrange, hin⟩

theorem Reached.mono (hsub : ∀ range ∈ ranges, range ∈ ranges') (h : Reached ranges bottom top) : Reached ranges' bottom top :=
  ⟨h.le, fun x hlo hhi => (h.covered x hlo hhi).mono hsub⟩

/-- Nothing that is covered is behind the end of the run. -/
theorem IsRun.reached_le (h : IsRun ranges bottom top) (h' : Reached ranges bottom top') : top' ≤ top := by
  by_contra hlt
  exact h.stops (h'.covered top h.le (lt_of_not_ge hlt))

theorem IsRun.unique (h : IsRun ranges bottom top) (h' : IsRun ranges bottom top') : top = top' :=
  le_antisymm (h'.reached_le h.toReached) (h.reached_le h'.toReached)

theorem IsRun.congr (hsame : ∀ range, range ∈ ranges' ↔ range ∈ ranges) (h : IsRun ranges bottom top) : IsRun ranges' bottom top := by
  constructor
  · exact h.toReached.mono fun range hrange => (hsame range).2 hrange
  · exact fun hcovered => h.stops (hcovered.mono fun range hrange => (hsame range).1 hrange)

/-! ## Scans -/

theorem le_extend (top : α) (range : α × α) : top ≤ extend top range := by
  unfold extend
  split_ifs with h
  · exact le_of_lt h.2
  · exact le_refl top

theorem le_scan (ranges : List (α × α)) (top : α) : top ≤ scan ranges top := by
  unfold scan
  induction ranges generalizing top with
  | nil => exact le_refl top
  | cons range ranges ih => exact (le_extend top range).trans (ih _)

theorem Reached.refl (ranges : List (α × α)) (bottom : α) : Reached ranges bottom bottom :=
  ⟨le_refl bottom, fun _ hlo hhi => absurd hlo (not_le_of_gt hhi)⟩

theorem Reached.extend (h : Reached ranges bottom top) (hrange : range ∈ ranges) : Reached ranges bottom (extend top range) := by
  unfold Coverage.extend
  split_ifs with hin
  · constructor
    · exact h.le.trans (le_of_lt hin.2)
    · intro x hlo hhi
      obtain hbefore | hbehind := lt_or_ge x top
      · exact h.covered x hlo hbefore
      · exact ⟨range, hrange, hin.1.trans hbehind, hhi⟩
  · exact h

theorem Reached.scan (h : Reached ranges bottom top) (hsub : ∀ range ∈ some_ranges, range ∈ ranges) :
    Reached ranges bottom (scan some_ranges top) := by
  unfold Coverage.scan
  induction some_ranges generalizing top with
  | nil => exact h
  | cons range rest ih =>
    obtain ⟨hrange, hrest⟩ := List.forall_mem_cons.1 hsub
    exact ih (h.extend hrange) hrest

theorem scan_eq_iff : scan ranges top = top ↔ ¬ Covered ranges top := by
  induction ranges generalizing top with
  | nil => simp [scan, Covered]
  | cons range ranges ih =>
    have hcons : scan (range :: ranges) top = scan ranges (extend top range) := rfl
    by_cases hin : range.1 ≤ top ∧ top < range.2
    · have hend : extend top range = range.2 := if_pos hin
      have hbeyond : top < scan (range :: ranges) top := by
        rw [hcons, hend]
        exact hin.2.trans_le (le_scan ranges range.2)
      constructor
      · exact fun heq => absurd heq (ne_of_gt hbeyond)
      · exact fun hnot => absurd ⟨range, List.mem_cons_self, hin⟩ hnot
    · have hstay : extend top range = top := if_neg hin
      rw [hcons, hstay, ih]
      simp only [Covered, List.mem_cons, exists_eq_or_imp, hin, false_or]

/-- A scan that gets no further. -/
theorem Reached.isRun (h : Reached ranges bottom top) (hscan : Coverage.scan ranges top = top) : IsRun ranges bottom top :=
  ⟨h, scan_eq_iff.1 hscan⟩

end Order

theorem exists_bound (ranges : List (Nat × Nat)) : ∃ bound, ∀ range ∈ ranges, range.2 ≤ bound := by
  induction ranges with
  | nil => exact ⟨0, by simp⟩
  | cons range ranges ih =>
    obtain ⟨bound, hbound⟩ := ih
    refine ⟨max range.2 bound, List.forall_mem_cons.2 ⟨le_max_left .., ?_⟩⟩
    exact fun other hother => (hbound other hother).trans (le_max_right ..)

/-- Finitely many ranges of numbers leave the run an end. -/
theorem exists_isRun (ranges : List (Nat × Nat)) (bottom : Nat) : ∃ top, IsRun ranges bottom top := by
  classical
  have hfree : ∃ x, bottom ≤ x ∧ ¬ Covered ranges x := by
    obtain ⟨bound, hbound⟩ := exists_bound ranges
    refine ⟨bottom + bound, Nat.le_add_right .., ?_⟩
    rintro ⟨range, hrange, -, hhi⟩
    have hle := hbound range hrange
    omega
  obtain ⟨hle, hstops⟩ := Nat.find_spec hfree
  refine ⟨Nat.find hfree, ⟨hle, ?_⟩, hstops⟩
  intro x hlo hhi
  by_contra hnot
  exact Nat.find_min hfree hhi ⟨hlo, hnot⟩

end Coverage
