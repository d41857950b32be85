import TrustedGrub.Lib.StringPool

/-!
# Strings that are edited in place

A string with a terminator in a flat memory, when characters are put into it or taken out of it by moving
what is behind them. More may be moved than the string.
-/

namespace StringPool
open Memory (slice store)
variable {B : Type} {z : B} {m m' : Nat → B} {p q n k : Nat} {a b d s t : List B}

/-- `n` cells are copied to another place, which may overlap with theirs. -/
def move (m : Nat → B) (dst src n : Nat) : Nat → B := store m dst (slice m src n)

/-- The string at `p`, of at most `n` characters. -/
def read [DecidableEq B] (z : B) (m : Nat → B) : Nat → Nat → List B
  | 0, _ => []
  | n + 1, p => if m p = z then [] else m p :: read z m n (p + 1)

/-! ## Strings -/

theorem holds_nil (h : m p = z) : Holds z m p [] := by
  refine ⟨List.not_mem_nil, ?_⟩
  rw [List.length_nil, Memory.slice_succ, Memory.slice_zero, h]
  rfl

theorem holds_cons {c : B} (h : m p = c) (hc : c ≠ z) (ht : Holds z m (p + 1) t) : Holds z m p (c :: t) := by
  refine ⟨fun hin => (List.mem_cons.1 hin).elim (fun hz => hc hz.symm) ht.chars, ?_⟩
  rw [List.length_cons, Memory.slice_succ, ht.cells, h]
  rfl

theorem Holds.head {c : B} (h : Holds z m p (c :: t)) : m p = c ∧ c ≠ z ∧ Holds z m (p + 1) t := by
  have hcells := h.cells
  rw [List.length_cons, Memory.slice_succ, List.cons_append] at hcells
  obtain ⟨hhead, htail⟩ := List.cons.inj hcells
  exact ⟨hhead, fun hz => h.chars (hz ▸ List.mem_cons_self), fun hin => h.chars (List.mem_cons_of_mem _ hin), htail⟩

theorem Holds.end_cell (h : Holds z m p []) : m p = z := by
  have hcells := h.cells
  rw [List.length_nil, Memory.slice_succ, Memory.slice_zero] at hcells
  exact (List.cons.inj hcells).1

/-- What is behind the first characters. -/
theorem Holds.drop (h : Holds z m p (a ++ b)) : Holds z m (p + a.length) b := by
  induction a generalizing p with
  | nil => exact h
  | cons c a ih =>
    rw [List.length_cons, Nat.add_comm a.length, ← Nat.add_assoc]
    exact ih h.head.2.2

theorem Holds.slice_left (h : Holds z m p (a ++ b)) : slice m p a.length = a := by
  induction a generalizing p with
  | nil => rfl
  | cons c a ih =>
    obtain ⟨hc, -, hrest⟩ := h.head
    rw [List.length_cons, Memory.slice_succ, hc, ih hrest]

theorem Holds.read [DecidableEq B] (h : Holds z m p t) (hn : t.length < n) : read z m n p = t := by
  induction t generalizing p n with
  | nil =>
    cases n with
    | zero => exact absurd hn (Nat.not_lt_zero _)
    | succ n => exact if_pos h.end_cell
  | cons c t ih =>
    cases n with
    | zero => exact absurd hn (Nat.not_lt_zero _)
    | succ n =>
      obtain ⟨hc, hz, hrest⟩ := h.head
      rw [StringPool.read, hc, if_neg hz, ih hrest (Nat.lt_of_succ_lt_succ hn)]

/-- A string is what it is before its terminator. -/
theorem Holds.eq (h : Holds z m p s) (h' : Holds z m p t) : s = t := by
  induction s generalizing p t with
  | nil =>
    cases t with
    | nil => rfl
    | cons c t => exact absurd (h'.head.1.symm.trans h.end_cell) h'.head.2.1
  | cons c s ih =>
    cases t with
    | nil => exact absurd (h.head.1.symm.trans h'.end_cell) h.head.2.1
    | cons d t => rw [← h.head.1, h'.head.1, ih h.head.2.2 h'.head.2.2]

theorem Holds.congr (h : Holds z m p t) (hsame : ∀ x, p ≤ x → x ≤ p + t.length → m' x = m x) : Holds z m' p t := by
  refine ⟨h.chars, ?_⟩
  rw [Memory.slice_congr fun x hlo hhi => hsame x hlo (Nat.le_of_lt_succ hhi), h.cells]

/-- A store elsewhere. -/
theorem Holds.outside (h : Holds z m p t) (hapart : q + s.length ≤ p ∨ p + t.length < q) : Holds z (Memory.store m q s) p t :=
  h.congr fun _ hlo hhi => hapart.elim (fun hq => Memory.store_of_ge (hq.trans hlo)) fun hq =>
    Memory.store_of_lt (Nat.lt_of_le_of_lt hhi hq)

theorem Holds.move_outside (h : Holds z m p t) (hapart : q + n ≤ p ∨ p + t.length < q) (src : Nat) : Holds z (move m q src n) p t := by
  refine h.outside ?_
  rwa [Memory.slice_length]

/-- Two pieces of a string. -/
theorem holds_append (hcells : slice m p a.length = a) (ha : z ∉ a) (hb : Holds z m (p + a.length) b) : Holds z m p (a ++ b) := by
  refine ⟨fun hin => (List.mem_append.1 hin).elim ha hb.chars, ?_⟩
  rw [List.length_append, Nat.add_assoc, Memory.slice_add, hcells, hb.cells, List.append_assoc]

/-! ## Edits -/

/-- A string is copied, and maybe cells behind it. -/
theorem Holds.copied (h : Holds z m p t) (hn : t.length < n) (m' : Nat → B) (q : Nat) : Holds z (Memory.store m' q (slice m p n)) q t := by
  obtain ⟨k, rfl⟩ : ∃ k, n = t.length + 1 + k := ⟨n - (t.length + 1), by omega⟩
  refine ⟨h.chars, ?_⟩
  rw [Memory.slice_add m, Memory.store_append, Memory.slice_length, Memory.slice_store_disjoint (.inl (Nat.le_refl _)),
    Memory.slice_store m' q (Memory.slice_length _ _ _), h.cells]

theorem Holds.move (h : Holds z m p t) (hn : t.length < n) (q : Nat) : Holds z (move m q p n) q t := h.copied hn m q

/-- Characters are put behind a string. -/
theorem Holds.extend (h : Holds z m p a) (hs : z ∉ s) : Holds z (Memory.store m (p + a.length) (s ++ [z])) p (a ++ s) := by
  refine holds_append ?_ h.chars (holds_store m _ hs)
  rw [Memory.slice_store_disjoint (.inl (Nat.le_refl _))]
  rw [← List.append_nil a] at h
  have hleft := h.slice_left
  exact hleft

/-- **Characters are put into a string.** -/
theorem Holds.insert (h : Holds z m p (a ++ b)) (hs : z ∉ s) :
    Holds z (Memory.store (StringPool.move m (p + a.length + s.length) (p + a.length) (b.length + 1)) (p + a.length) s) p
      (a ++ (s ++ b)) := by
  have ha : z ∉ a := fun hin => h.chars (List.mem_append_left _ hin)
  refine holds_append ?_ ha (holds_append ?_ hs ?_)
  · rw [Memory.slice_store_disjoint (.inl (Nat.le_refl _)), StringPool.move, Memory.slice_store_disjoint (.inl (Nat.le_add_right _ _)),
      h.slice_left]
  · exact Memory.slice_store _ _ rfl
  · exact (h.drop.move (Nat.lt_succ_self _) _).outside (.inl (Nat.le_refl _))

/-- **Characters are taken out of a string.** -/
theorem Holds.delete (h : Holds z m p (a ++ (d ++ b))) (hn : b.length < n) :
    Holds z (StringPool.move m (p + a.length) (p + a.length + d.length) n) p (a ++ b) := by
  have ha : z ∉ a := fun hin => h.chars (List.mem_append_left _ hin)
  refine holds_append ?_ ha (h.drop.drop.move hn _)
  rw [StringPool.move, Memory.slice_store_disjoint (.inl (Nat.le_refl _)), h.slice_left]

/-- A string in a block that is moved. -/
theorem Holds.move_block (h : Holds z m (q + k) t) (hin : k + t.length < n) (dst : Nat) :
    Holds z (StringPool.move m dst q n) (dst + k) t := by
  obtain ⟨l, rfl⟩ : ∃ l, n = k + (t.length + 1 + l) := ⟨n - (k + (t.length + 1)), by omega⟩
  have hlen : (slice m q k).length = k := Memory.slice_length m q k
  have hrest : dst + k = dst + (slice m q k).length := by rw [hlen]
  refine ⟨h.chars, ?_⟩
  rw [StringPool.move, Memory.slice_add m, Memory.store_append, hrest]
  exact (h.copied (by omega) _ _).cells

/-- A character of a string is another one. -/
theorem Holds.set {c : B} (h : Holds z m p t) (hk : k < t.length) (hc : c ≠ z) : Holds z (Memory.store m (p + k) [c]) p (t.set k c) := by
  induction t generalizing p k with
  | nil => exact absurd hk (Nat.not_lt_zero k)
  | cons d t ih =>
    obtain ⟨hd, hdz, hrest⟩ := h.head
    cases k with
    | zero =>
      have hset : Memory.store m p [c] (p + 0) = c := Memory.store_at Nat.zero_lt_one
      exact holds_cons hset hc (hrest.outside (.inl (Nat.le_refl _)))
    | succ k =>
      have htail := ih hrest (Nat.lt_of_succ_lt_succ hk)
      rw [Nat.add_right_comm] at htail
      exact holds_cons ((Memory.store_of_lt (by omega)).trans hd) hdz htail

theorem Holds.getElem (h : Holds z m p t) (hk : k < t.length) : m (p + k) = t[k] := by
  induction t generalizing p k with
  | nil => exact absurd hk (Nat.not_lt_zero k)
  | cons d t ih =>
    obtain ⟨hd, -, hrest⟩ := h.head
    cases k with
    | zero => exact hd
    | succ k =>
      rw [← Nat.add_assoc, Nat.add_right_comm]
      exact ih hrest (Nat.lt_of_succ_lt_succ hk)

end StringPool
