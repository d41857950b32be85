import Mathlib.Data.List.Nodup

/-!
# Tables

A finite map as a list of pairs with distinct keys, in the order in which the keys came in. A
key that is there already is given its value in place.
-/

namespace Table
variable {α β : Type} [DecidableEq α]

/-- The value of a key is set. -/
def assign (k : α) (v : β) : List (α × β) → List (α × β)
  | [] => [(k, v)]
  | e :: l => if e.1 = k then (k, v) :: l else e :: assign k v l

/-- Where a key is, or the end. -/
def position (k : α) (l : List (α × β)) : Nat := l.findIdx fun e => e.1 = k

/-- A key is taken out. -/
def remove (k : α) (l : List (α × β)) : List (α × β) := l.eraseIdx (position k l)

variable {k k' : α} {v : β} {l : List (α × β)}

theorem position_cons (e : α × β) : position k (e :: l) = if e.1 = k then 0 else position k l + 1 := by
  rw [position, List.findIdx_cons]
  by_cases h : e.1 = k
  · rw [if_pos h, decide_eq_true h]
    rfl
  · rw [if_neg h, decide_eq_false h]
    rfl

theorem position_le : position k l ≤ l.length := List.findIdx_le_length

theorem position_lt : position k l < l.length ↔ k ∈ l.map Prod.fst := by
  rw [position, List.findIdx_lt_length, List.mem_map]
  simp only [decide_eq_true_iff]

/-! ## Setting -/

theorem assign_getElem? (i : Nat) : (assign k v l)[i]? = if i = position k l then some (k, v) else l[i]? := by
  induction l generalizing i with
  | nil =>
    cases i with
    | zero => rfl
    | succ i => rfl
  | cons e l ih =>
    rw [assign, position_cons]
    by_cases h : e.1 = k
    · rw [if_pos h, if_pos h]
      cases i with
      | zero => rfl
      | succ i => rfl
    · rw [if_neg h, if_neg h]
      cases i with
      | zero => rfl
      | succ i =>
        rw [List.getElem?_cons_succ, List.getElem?_cons_succ, ih]
        simp only [Nat.succ_inj]

theorem assign_length : (assign k v l).length = if k ∈ l.map Prod.fst then l.length else l.length + 1 := by
  induction l with
  | nil => rfl
  | cons e l ih =>
    rw [assign, List.map_cons]
    by_cases h : e.1 = k
    · rw [if_pos h, if_pos (h ▸ List.mem_cons_self)]
      rfl
    · rw [if_neg h, List.length_cons, ih]
      simp only [List.mem_cons, Ne.symm h, false_or]
      split <;> rfl

theorem mem_assign {e : α × β} (h : e ∈ assign k v l) : e = (k, v) ∨ e ∈ l := by
  induction l with
  | nil => exact .inl (List.mem_singleton.1 h)
  | cons e' l ih =>
    rw [assign] at h
    split at h
    · exact (List.mem_cons.1 h).imp_right (List.mem_cons_of_mem _)
    · obtain rfl | h := List.mem_cons.1 h
      · exact .inr List.mem_cons_self
      · exact (ih h).imp_right (List.mem_cons_of_mem _)

theorem assign_nodup (h : (l.map Prod.fst).Nodup) : ((assign k v l).map Prod.fst).Nodup := by
  induction l with
  | nil => exact List.nodup_singleton k
  | cons e l ih =>
    obtain ⟨hnew, hrest⟩ := List.nodup_cons.1 h
    rw [assign]
    by_cases hk : e.1 = k
    · rw [if_pos hk]
      exact List.nodup_cons.2 ⟨hk ▸ hnew, hrest⟩
    · rw [if_neg hk]
      refine List.nodup_cons.2 ⟨fun hmem => ?_, ih hrest⟩
      obtain ⟨e', hmem, heq⟩ := List.mem_map.1 hmem
      obtain rfl | hmem := mem_assign hmem
      · exact hk heq.symm
      · exact hnew (List.mem_map.2 ⟨e', hmem, heq⟩)

theorem lookup_assign : (assign k v l).lookup k' = if k' = k then some v else l.lookup k' := by
  induction l with
  | nil =>
    rw [assign, List.lookup_cons]
    by_cases h : k' = k
    · rw [if_pos h, beq_iff_eq.2 h]
    · rw [if_neg h, beq_false_of_ne h]
  | cons e l ih =>
    obtain ⟨k₁, v₁⟩ := e
    rw [assign]
    by_cases h : k₁ = k
    · subst h
      rw [if_pos rfl, List.lookup_cons, List.lookup_cons]
      by_cases h' : k' = k₁
      · rw [if_pos h', beq_iff_eq.2 h']
      · rw [if_neg h', beq_false_of_ne h']
    · rw [if_neg h, List.lookup_cons, List.lookup_cons, ih]
      by_cases h' : k' = k₁
      · rw [beq_iff_eq.2 h']
        show some v₁ = _
        rw [if_neg fun heq => h (h'.symm.trans heq)]
      · rw [beq_false_of_ne h']

theorem lookup_of_not_mem (h : k ∉ l.map Prod.fst) : l.lookup k = none := by
  rw [List.lookup_eq_none_iff]
  intro e he
  exact bne_iff_ne.2 fun heq => h (heq ▸ List.mem_map_of_mem he)

theorem lookup_eq : l.lookup k = (l[position k l]?).map Prod.snd := by
  induction l with
  | nil => rfl
  | cons e l ih =>
    obtain ⟨k₁, v₁⟩ := e
    rw [List.lookup_cons, position_cons]
    by_cases h : k₁ = k
    · rw [if_pos h, beq_iff_eq.2 h.symm]
      rfl
    · rw [if_neg h, beq_false_of_ne (Ne.symm h), List.getElem?_cons_succ]
      exact ih

/-! ## Taking out -/

theorem remove_sublist : (remove k l).Sublist l := List.eraseIdx_sublist ..

theorem lookup_remove (h : (l.map Prod.fst).Nodup) : (remove k l).lookup k' = if k' = k then none else l.lookup k' := by
  induction l with
  | nil =>
    show none = _
    rw [List.lookup_nil, ite_self]
  | cons e l ih =>
    obtain ⟨k₁, v₁⟩ := e
    obtain ⟨hnew, hrest⟩ := List.nodup_cons.1 h
    rw [remove, position_cons]
    by_cases h : k₁ = k
    · subst h
      rw [if_pos rfl, List.eraseIdx_cons_zero, List.lookup_cons]
      by_cases h' : k' = k₁
      · rw [if_pos h', h', lookup_of_not_mem hnew]
      · rw [if_neg h', beq_false_of_ne h']
    · rw [if_neg h, List.eraseIdx_cons_succ, List.lookup_cons, List.lookup_cons]
      have ih := ih hrest
      rw [remove] at ih
      rw [ih]
      by_cases h' : k' = k₁
      · rw [beq_iff_eq.2 h']
        show some v₁ = _
        rw [if_neg fun heq => h (h'.symm.trans heq)]
      · rw [beq_false_of_ne h']

end Table
