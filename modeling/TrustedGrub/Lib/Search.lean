import Mathlib.Order.Lattice

/-!
# Binary search for the last key that is not greater

A table of keys is searched for the place of a value: the last entry whose key is not
greater, or the first entry where all keys are.
-/

namespace Search
variable {α : Type} [LinearOrder α] {key : Nat → α} {n : Nat} {x : α} {i j l r : Nat}

/-- Entry `i` of a table of `n` keys is the place of `x`. -/
structure Placed (key : Nat → α) (n : Nat) (x : α) (i : Nat) : Prop where
  reaches : i = 0 ∨ i < n ∧ key i ≤ x
  last : ∀ j, i < j → j < n → x < key j

theorem Placed.unique (hi : Placed key n x i) (hj : Placed key n x j) : i = j := by
  have hle {i j : Nat} (hi : Placed key n x i) (hj : Placed key n x j) : j ≤ i := by
    by_contra hlt
    obtain rfl | ⟨hn, hkey⟩ := hj.reaches
    · omega
    · exact absurd (hi.last j (by omega) hn) (not_lt_of_ge hkey)
  exact Nat.le_antisymm (hle hj hi) (hle hi hj)

/-- The entries up to the one before `l` do not exceed `x`, those behind `r` do. -/
structure Window (key : Nat → α) (n : Nat) (x : α) (l r : Nat) : Prop where
  pos : 0 < l
  below : l = 1 ∨ l ≤ n ∧ key (l - 1) ≤ x
  above : ∀ j, r < j → j < n → x < key j

/-- The keys of a table of `n` entries increase. -/
def Increasing (key : Nat → α) (n : Nat) : Prop := ∀ i j, i < j → j < n → key i < key j

/-- The keys of a table of `n` entries do not decrease. -/
def Sorted (key : Nat → α) (n : Nat) : Prop := ∀ i j, i < j → j < n → key i ≤ key j

theorem Increasing.sorted (h : Increasing key n) : Sorted key n := fun i j hij hj => le_of_lt (h i j hij hj)

/-- The search in `[l, r]`, for as many steps as there is fuel. -/
def search (key : Nat → α) (x : α) : Nat → Nat → Nat → Option Nat
  | 0, _, _ => none
  | fuel + 1, l, r =>
    if l ≤ r then
      let m := l + (r - l) / 2
      if x < key m then search key x fuel l (m - 1) else search key x fuel (m + 1) r
    else some (l - 1)

/-- The entries whose keys the search compares. -/
def probes (key : Nat → α) (x : α) : Nat → Nat → Nat → List Nat
  | 0, _, _ => []
  | fuel + 1, l, r =>
    if l ≤ r then
      let m := l + (r - l) / 2
      m :: if x < key m then probes key x fuel l (m - 1) else probes key x fuel (m + 1) r
    else []

theorem Window.right (h : Sorted key n) (hw : Window key n x l r) (hlr : l ≤ r) (hx : x < key (l + (r - l) / 2)) :
    Window key n x l (l + (r - l) / 2 - 1) := by
  refine ⟨hw.pos, hw.below, fun j hj hn => ?_⟩
  obtain hjm | hjm := Nat.lt_or_ge (l + (r - l) / 2) j
  · exact lt_of_lt_of_le hx (h _ _ hjm hn)
  · rwa [show j = l + (r - l) / 2 by omega]

theorem Window.left (hw : Window key n x l r) (hlr : l ≤ r) (hr : r < n) (hx : ¬ x < key (l + (r - l) / 2)) :
    Window key n x (l + (r - l) / 2 + 1) r := by
  refine ⟨by omega, .inr ⟨by omega, ?_⟩, hw.above⟩
  exact le_of_not_gt hx

theorem search_placed (h : Sorted key n) (hw : Window key n x l r) (hr : r < n ∨ r < l) {fuel : Nat} (hfuel : r + 1 - l < fuel) :
    ∃ i, search key x fuel l r = some i ∧ Placed key n x i := by
  induction fuel generalizing l r with
  | zero => omega
  | succ fuel ih =>
    have hpos := hw.pos
    simp only [search]
    split_ifs with hlr hx
    · apply ih (hw.right h hlr hx)
      · omega
      · omega
    · apply ih (hw.left hlr (by omega) hx)
      · omega
      · omega
    · refine ⟨l - 1, rfl, ?_, fun j hj hn => hw.above j (by omega) hn⟩
      exact hw.below.imp (by omega) fun hbelow => ⟨by omega, hbelow.2⟩

/-- No key but those between `l` and `r` is compared. -/
theorem probes_between (key : Nat → α) (x : α) {fuel : Nat} (hl : 0 < l) (hi : i ∈ probes key x fuel l r) : l ≤ i ∧ i ≤ r := by
  induction fuel generalizing l r with
  | zero => simp [probes] at hi
  | succ fuel ih =>
    simp only [probes] at hi
    split_ifs at hi with hlr hx
    · obtain rfl | hi := List.mem_cons.1 hi
      · omega
      · have hleft := ih hl hi
        omega
    · obtain rfl | hi := List.mem_cons.1 hi
      · omega
      · have hright := ih (by omega) hi
        omega
    · simp at hi

/-- The keys that are not compared do not matter. -/
theorem search_congr {key' : Nat → α} {fuel : Nat} (h : ∀ i ∈ probes key x fuel l r, key' i = key i) :
    search key' x fuel l r = search key x fuel l r := by
  induction fuel generalizing l r with
  | zero => rfl
  | succ fuel ih =>
    simp only [probes] at h
    simp only [search]
    by_cases hlr : l ≤ r
    · simp only [if_pos hlr, List.forall_mem_cons] at h ⊢
      rw [h.1]
      split_ifs with hx
      · apply ih
        simpa only [if_pos hx] using h.2
      · apply ih
        simpa only [if_neg hx] using h.2
    · simp only [if_neg hlr]

/-- The place in a table that is not empty. -/
theorem Placed.last_or_first (hp : Placed key n x i) (hn : 0 < n) (h : Sorted key n) :
    i < n ∧ ((key i ≤ x ∧ ∀ j < n, key j ≤ x → j ≤ i) ∨ (i = 0 ∧ ∀ j < n, x < key j)) := by
  have hlast : ∀ j < n, key j ≤ x → j ≤ i := by
    intro j hj hkey
    by_contra hlt
    exact absurd hkey (not_le_of_gt (hp.last j (by omega) hj))
  obtain rfl | ⟨hi, hkey⟩ := hp.reaches
  · refine ⟨hn, ?_⟩
    obtain hkey | hkey := le_or_gt (key 0) x
    · exact .inl ⟨hkey, hlast⟩
    · refine .inr ⟨rfl, fun j hj => ?_⟩
      obtain rfl | hpos := Nat.eq_zero_or_pos j
      · exact hkey
      · exact lt_of_lt_of_le hkey (h 0 j hpos hj)
  · exact ⟨hi, .inl ⟨hkey, hlast⟩⟩

/-- The search that leaves the first entry out, as the place if no other is. -/
theorem search_one (h : Sorted key n) {fuel : Nat} (hfuel : n ≤ fuel) (hpos : 0 < fuel) :
    ∃ i, search key x fuel 1 (n - 1) = some i ∧ Placed key n x i := by
  apply search_placed h
  · exact ⟨Nat.one_pos, .inl rfl, fun j hj hn => by omega⟩
  · omega
  · omega

end Search
