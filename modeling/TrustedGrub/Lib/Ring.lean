import Mathlib.Data.List.Basic
import Mathlib.Data.Nat.ModEq
import Mathlib.Logic.Function.Basic
import Mathlib.Tactic.Common

/-!
# A stack in a ring of slots

The entries of a stack, the oldest first, lie in the slots of a ring from a first one on. One slot stays free, so that
where the entries end tells how many there are. A relation says which entry a slot stands for.
-/

namespace Ring
variable {α β : Type} {R : α → β → Prop} {N start : Nat} {slots : Nat → α} {st : List β} {x : α} {b : β}

/-- The slot of the entry at index `k`. -/
def place (N start k : Nat) : Nat := (start + k) % N

/-- An entry on top, for which the oldest one goes if there is no room. -/
def push (N : Nat) (st : List β) (b : β) : List β := if st.length + 1 < N then st ++ [b] else st.tail ++ [b]

structure Holds (R : α → β → Prop) (N : Nat) (slots : Nat → α) (start : Nat) (st : List β) : Prop where
  first : start < N
  room : st.length < N
  entry : ∀ k (hk : k < st.length), R (slots (place N start k)) st[k]

theorem place_lt (hN : 0 < N) (k : Nat) : place N start k < N := Nat.mod_lt _ hN

theorem place_zero (h : start < N) : place N start 0 = start := Nat.mod_eq_of_lt h

theorem place_place (j k : Nat) : place N (place N start j) k = place N start (j + k) := by
  rw [place, place, place, Nat.mod_add_mod, Nat.add_assoc]

theorem place_inj {j k : Nat} (hj : j < N) (hk : k < N) (h : place N start j = place N start k) : j = k := by
  have hcancel := Nat.ModEq.add_left_cancel' start (show Nat.ModEq N (start + j) (start + k) from h)
  exact (Nat.mod_eq_of_lt hj).symm.trans (Eq.trans hcancel (Nat.mod_eq_of_lt hk))

/-- The slot behind, with the wrap around written out. -/
theorem next_eq (h : start < N) : (if start + 1 = N then 0 else start + 1) = place N start 1 := by
  unfold place
  split
  next hend => rw [hend, Nat.mod_self]
  next hend => exact (Nat.mod_eq_of_lt (Nat.lt_of_le_of_ne h hend)).symm

/-- The slot before. -/
theorem previous_eq {k : Nat} (h : start < N) :
    (if place N start (k + 1) = 0 then N - 1 else place N start (k + 1) - 1) = place N start k := by
  unfold place
  have hN : 0 < N := Nat.lt_of_le_of_lt (Nat.zero_le _) h
  have hsum := Nat.mod_lt (start + k) hN
  rw [← Nat.add_assoc, Nat.add_mod]
  rcases Nat.lt_or_ge ((start + k) % N + 1) N with hlt | hge
  · have hone : 1 % N = 1 := Nat.mod_eq_of_lt (Nat.lt_of_le_of_lt (Nat.le_add_left 1 _) hlt)
    rw [hone, Nat.mod_eq_of_lt hlt, if_neg (Nat.succ_ne_zero _), Nat.add_sub_cancel]
  · have hlast : (start + k) % N + 1 = N := Nat.le_antisymm hsum hge
    rcases Nat.lt_or_ge 1 N with hone | hone
    · rw [Nat.mod_eq_of_lt hone, hlast, Nat.mod_self, if_pos rfl]
      omega
    · obtain rfl : N = 1 := Nat.le_antisymm hone hN
      simp only [Nat.mod_one, if_true]

namespace Holds

/-- The entries below an index. -/
theorem take (h : Holds R N slots start st) (n : Nat) : Holds R N slots start (st.take n) := by
  refine ⟨h.first, Nat.lt_of_le_of_lt (List.length_take_le' n st) h.room, fun k hk => ?_⟩
  rw [List.length_take] at hk
  rw [List.getElem_take]
  exact h.entry k (Nat.lt_of_lt_of_le hk (Nat.min_le_right n st.length))

/-- The oldest entry goes. -/
theorem tail (h : Holds R N slots start st) : Holds R N slots (place N start 1) st.tail := by
  have hN : 0 < N := Nat.lt_of_le_of_lt (Nat.zero_le _) h.first
  refine ⟨place_lt hN 1, ?_, fun k hk => ?_⟩
  · rw [List.length_tail]
    exact Nat.lt_of_le_of_lt (Nat.sub_le _ _) h.room
  · rw [place_place, Nat.add_comm 1 k, List.getElem_tail]
    rw [List.length_tail] at hk
    exact h.entry (k + 1) (Nat.add_lt_of_lt_sub hk)

/-- An entry where there is room. -/
theorem concat (h : Holds R N slots start st) (hroom : st.length + 1 < N) (hx : R x b) :
    Holds R N (Function.update slots (place N start st.length) x) start (st ++ [b]) := by
  refine ⟨h.first, by rwa [List.length_append], fun k hk => ?_⟩
  rw [List.length_append, List.length_singleton] at hk
  rcases Nat.lt_or_ge k st.length with hlt | hge
  · have hapart : place N start k ≠ place N start st.length := fun heq =>
      Nat.ne_of_lt hlt (place_inj (Nat.lt_trans hlt h.room) h.room heq)
    rw [Function.update_of_ne hapart, List.getElem_append_left hlt]
    exact h.entry k hlt
  · obtain rfl : k = st.length := Nat.le_antisymm (Nat.lt_succ_iff.1 hk) hge
    rw [Function.update_self, List.getElem_concat_length rfl]
    exact hx

/-- The top entry is another one. -/
theorem set_last (h : Holds R N slots start (st ++ [b])) {x : α} {b' : β} (hx : R x b') :
    Holds R N (Function.update slots (place N start st.length) x) start (st ++ [b']) := by
  have hroom := h.room
  rw [List.length_append] at hroom
  have hbelow := h.take st.length
  rw [List.take_left] at hbelow
  exact hbelow.concat hroom hx

/-- The top entry. -/
theorem last (h : Holds R N slots start (st ++ [b])) : R (slots (place N start st.length)) b := by
  have htop := h.entry st.length (by rw [List.length_append]; exact Nat.lt_succ_self _)
  rwa [List.getElem_concat_length rfl] at htop

/-- A push reaches the first slot when the ring is full. -/
theorem reaches_iff (h : Holds R N slots start st) : start = place N start (st.length + 1) ↔ N ≤ st.length + 1 := by
  constructor
  · intro heq
    by_contra hlt
    exact Nat.succ_ne_zero _ (place_inj (Nat.lt_of_not_le hlt) (Nat.lt_of_le_of_lt (Nat.zero_le _) h.room)
      (heq.symm.trans (place_zero h.first).symm))
  · intro hge
    have hfull : st.length + 1 = N := Nat.le_antisymm h.room hge
    rw [hfull, place, Nat.add_mod_right, Nat.mod_eq_of_lt h.first]

/-- **An entry is pushed**, and the first slot moves on where the entries would reach it. -/
theorem push (h : Holds R N slots start st) (hN : 1 < N) (hx : R x b) :
    Holds R N (Function.update slots (place N start st.length) x)
      (if start = place N start (st.length + 1) then place N start 1 else start) (Ring.push N st b) := by
  have hroom := h.room
  rw [Ring.push]
  rcases Nat.lt_or_ge (st.length + 1) N with hlt | hge
  · rw [if_neg (mt h.reaches_iff.1 (Nat.not_le.2 hlt)), if_pos hlt]
    exact h.concat hlt hx
  · have htail : st.tail.length + 1 = st.length := by
      rw [List.length_tail]
      omega
    have hplace : place N start st.length = place N (place N start 1) st.tail.length := by
      rw [place_place, Nat.add_comm 1, htail]
    rw [if_pos (h.reaches_iff.2 hge), if_neg (Nat.not_lt.2 hge), hplace]
    exact h.tail.concat (by omega) hx

end Holds

/-- The end of the entries after a push, and the slot of the top one. -/
theorem push_place (hN : 1 < N) (h : Holds R N slots start st) (b : β) :
    place N (if start = place N start (st.length + 1) then place N start 1 else start) (push N st b).length =
      place N start (st.length + 1) ∧
    place N (if start = place N start (st.length + 1) then place N start 1 else start) ((push N st b).length - 1) =
      place N start st.length := by
  have hroom := h.room
  unfold push
  rcases Nat.lt_or_ge (st.length + 1) N with hlt | hge
  · rw [if_neg (mt h.reaches_iff.1 (Nat.not_le.2 hlt)), if_pos hlt, List.length_append, List.length_singleton, Nat.add_sub_cancel]
    exact ⟨rfl, rfl⟩
  · have htail : st.tail.length + 1 = st.length := by
      rw [List.length_tail]
      omega
    rw [if_pos (h.reaches_iff.2 hge), if_neg (Nat.not_lt.2 hge), List.length_append, List.length_singleton, place_place, place_place,
      Nat.add_sub_cancel,
      htail, Nat.add_comm 1 st.length, Nat.add_comm 1, htail]
    exact ⟨rfl, rfl⟩

end Ring
