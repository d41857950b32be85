import Mathlib.Data.List.Basic
import Mathlib.Tactic.Common

/-!
# Flat memory

A memory is a function from addresses to cells, of any cell type. `slice` reads a
range of it as a list, `store` overwrites one; the lemmas say what a store leaves in
the range it wrote, what it leaves alone, and how adjacent ranges compose. `segment`
is the same cut taken from a list.
-/

namespace Memory

variable {B : Type}

/-- The `n` cells from `a` on. -/
def slice (m : Nat → B) (a n : Nat) : List B := (List.range n).map fun i => m (a + i)

/-- `m` with `bytes` stored from `a` on. -/
def store (m : Nat → B) (a : Nat) (bytes : List B) : Nat → B :=
  fun x => if a ≤ x then bytes.getD (x - a) (m x) else m x

/-- The `n` elements of `l` from position `p` on. -/
def segment (l : List B) (p n : Nat) : List B := (l.drop p).take n

@[simp] theorem slice_length (m : Nat → B) (a n : Nat) : (slice m a n).length = n := by
  simp [slice]

@[simp] theorem slice_zero (m : Nat → B) (a : Nat) : slice m a 0 = [] := rfl

theorem slice_getElem? (m : Nat → B) (a n i : Nat) : (slice m a n)[i]? = if i < n then some (m (a + i)) else none := by
  simp only [slice, List.getElem?_map]
  split
  next h => rw [List.getElem?_range h]; rfl
  next h => rw [List.getElem?_eq_none (by simpa using h)]; rfl

theorem slice_add (m : Nat → B) (a n k : Nat) : slice m a (n + k) = slice m a n ++ slice m (a + n) k := by
  simp only [slice, List.range_add, List.map_append, List.map_map]
  congr 1
  exact List.map_congr_left fun i _ => by simp only [Function.comp, Nat.add_assoc]

theorem slice_succ (m : Nat → B) (a n : Nat) : slice m a (n + 1) = m a :: slice m (a + 1) n := by
  rw [Nat.add_comm n 1, slice_add]
  rfl

/-- A slice only depends on the cells it reads. -/
theorem slice_congr {m m' : Nat → B} {a n : Nat} (h : ∀ x, a ≤ x → x < a + n → m x = m' x) : slice m a n = slice m' a n := by
  refine List.map_congr_left fun i hi => h _ (Nat.le_add_right _ _) ?_
  have := List.mem_range.1 hi
  omega

theorem slice_shift (m : Nat → B) (a b n : Nat) : slice (fun i => m (a + i)) b n = slice m (a + b) n := by
  simp only [slice, Nat.add_assoc]

/-- The cells of two slices agree exactly when the slices are equal. -/
theorem slice_eq_iff {m m' : Nat → B} {a b n : Nat} :
    slice m a n = slice m' b n ↔ ∀ i < n, m (a + i) = m' (b + i) := by
  simp only [slice, List.map_inj_left, List.mem_range]

theorem store_of_lt {m : Nat → B} {a x : Nat} {bytes : List B} (h : x < a) : store m a bytes x = m x := by
  simp only [store, if_neg (Nat.not_le.2 h)]

theorem store_of_ge {m : Nat → B} {a x : Nat} {bytes : List B} (h : a + bytes.length ≤ x) : store m a bytes x = m x := by
  rw [store, List.getD, List.getElem?_eq_none (by omega)]
  exact ite_self _

theorem store_at {m : Nat → B} {a i : Nat} {bytes : List B} (h : i < bytes.length) :
    store m a bytes (a + i) = bytes[i] := by
  rw [store, if_pos (Nat.le_add_right a i), Nat.add_sub_cancel_left, List.getD, List.getElem?_eq_getElem h]
  rfl

@[simp] theorem store_nil (m : Nat → B) (a : Nat) : store m a [] = m := by
  funext x
  exact (Nat.lt_or_ge x a).elim store_of_lt fun h => store_of_ge (by simpa using h)

/-- What was stored is read back. -/
theorem slice_store (m : Nat → B) (a : Nat) {bytes : List B} {n : Nat} (h : bytes.length = n) :
    slice (store m a bytes) a n = bytes := by
  subst h
  apply List.ext_getElem?
  intro i
  rw [slice_getElem?]
  split
  next h => rw [store_at h, List.getElem?_eq_getElem h]
  next h => rw [List.getElem?_eq_none (by omega)]

/-- A store leaves every disjoint range alone. -/
theorem slice_store_disjoint {m : Nat → B} {a b n : Nat} {bytes : List B}
    (h : b + n ≤ a ∨ a + bytes.length ≤ b) : slice (store m a bytes) b n = slice m b n := by
  refine slice_congr fun x hlo hhi => ?_
  rcases h with h | h
  · exact store_of_lt (by omega)
  · exact store_of_ge (by omega)

/-- Two adjacent stores are one. -/
theorem store_append (m : Nat → B) (a : Nat) (xs ys : List B) :
    store m a (xs ++ ys) = store (store m a xs) (a + xs.length) ys := by
  funext x
  by_cases h : x < a + xs.length
  · rw [store_of_lt h]
    by_cases hx : x < a
    · rw [store_of_lt hx, store_of_lt hx]
    · obtain ⟨i, rfl⟩ := Nat.exists_eq_add_of_le (Nat.le_of_not_lt hx)
      rw [store_at (by simp; omega), store_at (by omega), List.getElem_append_left]
  · by_cases hx : x < a + xs.length + ys.length
    · obtain ⟨i, rfl⟩ := Nat.exists_eq_add_of_le (Nat.le_of_not_lt h)
      rw [Nat.add_assoc, store_at (by simp; omega), ← Nat.add_assoc, store_at (by omega),
        List.getElem_append_right (by omega)]
      simp
    · have hx' : a + (xs ++ ys).length ≤ x := by rw [List.length_append]; omega
      rw [store_of_ge hx', store_of_ge (by omega), store_of_ge (by omega)]

theorem segment_length {l : List B} {p n : Nat} (h : p + n ≤ l.length) : (segment l p n).length = n := by
  simp only [segment, List.length_take, List.length_drop]
  omega

@[simp] theorem segment_zero (l : List B) (p : Nat) : segment l p 0 = [] := by
  simp only [segment, List.take_zero]

theorem segment_all (l : List B) : segment l 0 l.length = l := by
  simp only [segment, List.drop_zero, List.take_length]

theorem segment_append (l : List B) (p n k : Nat) : segment l p n ++ segment l (p + n) k = segment l p (n + k) := by
  simp only [segment, List.take_add, List.drop_drop]

/-- Two adjacent stores of adjacent segments are one. -/
theorem store_segment_append (m : Nat → B) (a : Nat) {l : List B} {p n : Nat} (h : p + n ≤ l.length) (k : Nat) :
    store (store m a (segment l p n)) (a + n) (segment l (p + n) k) = store m a (segment l p (n + k)) := by
  rw [← segment_append, store_append, segment_length h]

/-- A prefix grows by the segment that follows it. -/
theorem take_append_segment (l : List B) (p n : Nat) : l.take p ++ segment l p n = l.take (p + n) := by
  simp only [segment, List.take_add]

theorem segment_take {l : List B} {p n k : Nat} (h : p + n ≤ k) : segment (l.take k) p n = segment l p n := by
  simp only [segment, List.drop_take, List.take_take]
  congr 1
  omega

/-- A memory that holds a list holds its segments. -/
theorem slice_segment {m : Nat → B} {a : Nat} {l : List B} (hm : slice m a l.length = l) {p n : Nat}
    (h : p + n ≤ l.length) : slice m (a + p) n = segment l p n := by
  obtain ⟨k, hk⟩ := Nat.exists_eq_add_of_le h
  rw [hk, slice_add, slice_add] at hm
  conv_rhs => rw [← hm]
  rw [segment, List.append_assoc, List.drop_left' (slice_length m a p), List.take_left' (slice_length m _ n)]

end Memory
