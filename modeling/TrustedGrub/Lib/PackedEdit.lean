import TrustedGrub.Lib.StringEdit
import Mathlib.Tactic.Ring

/-!
# Packed strings that are edited in place

A group of strings in a flat memory. A string is put in, taken out or replaced when what is behind it is moved and the new
cells are stored before that.
-/

namespace Memory
variable {B : Type} {m : Nat → B} {p : Nat} {a b d s : List B}

/-- A range that lies in the memory, in two parts. -/
theorem slice_eq_append (m : Nat → B) (p : Nat) (a b : List B) :
    slice m p (a ++ b).length = a ++ b ↔ slice m p a.length = a ∧ slice m (p + a.length) b.length = b := by
  rw [List.length_append, slice_add]
  constructor
  · intro h
    exact List.append_inj h (slice_length m p a.length)
  · rintro ⟨ha, hb⟩
    rw [ha, hb]

/-- **A piece of a range is replaced**: what is behind it is moved first. -/
theorem splice (h : slice m p (a ++ (d ++ b)).length = a ++ (d ++ b)) :
    slice (store (StringPool.move m (p + a.length + s.length) (p + a.length + d.length) b.length) (p + a.length) s) p
      (a ++ (s ++ b)).length =
      a ++ (s ++ b) := by
  obtain ⟨ha, hrest⟩ := (slice_eq_append m p a (d ++ b)).1 h
  have hb := ((slice_eq_append m (p + a.length) d b).1 hrest).2
  refine (slice_eq_append _ p a (s ++ b)).2 ⟨?_, (slice_eq_append _ _ s b).2 ⟨slice_store _ _ rfl, ?_⟩⟩
  · rw [slice_store_disjoint (.inl (Nat.le_refl _)), StringPool.move, slice_store_disjoint (.inl (by omega)), ha]
  · rw [slice_store_disjoint (.inr (Nat.le_refl _)), StringPool.move, slice_store _ _ (slice_length _ _ _), hb]

end Memory

namespace Packed
open Memory (slice)
variable {B : Type} [DecidableEq B] {z : B} {s : List B} {ss : List (List B)} {m : Nat → B} {p k : Nat}

omit [DecidableEq B] in
theorem lines_append (z : B) (ss ts : List (List B)) : lines z (ss ++ ts) = lines z ss ++ lines z ts := List.flatMap_append

omit [DecidableEq B] in
theorem group_append (z : B) (ss ts : List (List B)) : group z (ss ++ ts) = lines z ss ++ group z ts := by
  unfold group
  rw [lines_append, List.append_assoc]

omit [DecidableEq B] in
theorem group_take_drop (z : B) (ss : List (List B)) (k : Nat) : group z ss = lines z (ss.take k) ++ group z (ss.drop k) := by
  rw [← group_append, List.take_append_drop]

omit [DecidableEq B] in
theorem group_line (z : B) (s : List B) (ss : List (List B)) : group z (s :: ss) = (s ++ [z]) ++ group z ss := by
  rw [← List.append_nil (group z (s :: ss)), group_cons, List.append_nil, List.append_assoc]
  rfl

omit [DecidableEq B] in
/-- The group with its string number `k` apart. -/
theorem group_getElem (z : B) (hk : k < ss.length) :
    group z ss = lines z (ss.take k) ++ ((ss[k] ++ [z]) ++ group z (ss.drop (k + 1))) := by
  rw [group_take_drop z ss k, List.drop_eq_getElem_cons hk, group_line]

omit [DecidableEq B] in
theorem group_insertIdx (z : B) (s : List B) (hk : k ≤ ss.length) :
    group z (ss.insertIdx k s) = lines z (ss.take k) ++ ((s ++ [z]) ++ group z (ss.drop k)) := by
  induction k generalizing ss with
  | zero => rw [List.insertIdx_zero, group_line, List.take_zero, List.drop_zero]; rfl
  | succ k ih =>
    cases ss with
    | nil => exact absurd hk (Nat.not_succ_le_zero k)
    | cons t ss =>
      rw [List.insertIdx_succ_cons, group_line, ih (Nat.le_of_succ_le_succ hk), List.take_succ_cons, List.drop_succ_cons, lines_cons,
        List.append_assoc]
      rfl

omit [DecidableEq B] in
theorem group_eraseIdx (z : B) (ss : List (List B)) (k : Nat) :
    group z (ss.eraseIdx k) = lines z (ss.take k) ++ ([] ++ group z (ss.drop (k + 1))) := by
  rw [List.eraseIdx_eq_take_drop_succ, group_append, List.nil_append]

omit [DecidableEq B] in
theorem group_set (z : B) (s : List B) (hk : k < ss.length) :
    group z (ss.set k s) = lines z (ss.take k) ++ ((s ++ [z]) ++ group z (ss.drop (k + 1))) := by
  rw [List.set_eq_take_append_cons_drop, if_pos hk, group_append, group_line]

omit [DecidableEq B] in
/-- Each string takes its characters and a terminator, and the group another one. -/
theorem group_length (z : B) (ss : List (List B)) : (group z ss).length = (ss.map fun s => s.length + 1).sum + 1 := by
  induction ss with
  | nil => rfl
  | cons s ss ih =>
    rw [group_line, List.length_append, ih, List.map_cons, List.sum_cons, List.length_append, List.length_singleton,
      Nat.add_assoc (s.length + 1)]

/-- What is behind the strings before number `k`. -/
theorem entry_group (h : ∀ s ∈ ss, z ∉ s) (hk : k ≤ ss.length) : entry z false (group z ss) k = some (group z (ss.drop k)) :=
  entry_lines h hk [z]

/-! ## Edits -/

/-- The group lies at `p`. -/
def Lies (z : B) (m : Nat → B) (p : Nat) (ss : List (List B)) : Prop := slice m p (group z ss).length = group z ss

/-- Where the string number `k` of a group at `p` starts. -/
def start (z : B) (ss : List (List B)) (p k : Nat) : Nat := p + (lines z (ss.take k)).length

/-- The cell behind a group. -/
def stop (z : B) (ss : List (List B)) (p : Nat) : Nat := p + (group z ss).length

omit [DecidableEq B] in
theorem stop_sub_start (z : B) (ss : List (List B)) (p k : Nat) : stop z ss p - start z ss p k = (group z (ss.drop k)).length := by
  unfold stop start
  rw [group_take_drop z ss k, List.length_append]
  omega

omit [DecidableEq B] in
theorem start_succ (z : B) (hk : k < ss.length) (p : Nat) : start z ss p (k + 1) = start z ss p k + (ss[k].length + 1) := by
  unfold start
  rw [List.take_succ_eq_append_getElem hk, lines_append, List.length_append, Nat.add_assoc]
  congr 2
  show ((ss[k] ++ [z]) ++ []).length = _
  rw [List.append_nil, List.length_append, List.length_singleton]

namespace Lies

omit [DecidableEq B] in
/-- **A string is put in.** -/
theorem insert (h : Lies z m p ss) (hk : k ≤ ss.length) (s : List B) :
    Lies z (Memory.store (StringPool.move m (start z ss p k + (s.length + 1)) (start z ss p k) (stop z ss p - start z ss p k))
      (start z ss p k) (s ++ [z]))
      p (ss.insertIdx k s) := by
  unfold Lies at h ⊢
  rw [stop_sub_start, group_insertIdx z s hk]
  rw [group_take_drop z ss k] at h
  have hsplice := Memory.splice (d := []) (s := s ++ [z]) h
  rw [List.length_append, List.length_singleton] at hsplice
  exact hsplice

omit [DecidableEq B] in
/-- **A string is taken out.** -/
theorem erase (h : Lies z m p ss) (hk : k < ss.length) :
    Lies z (StringPool.move m (start z ss p k) (start z ss p (k + 1)) (stop z ss p - start z ss p (k + 1))) p (ss.eraseIdx k) := by
  unfold Lies at h ⊢
  rw [stop_sub_start, group_eraseIdx, start_succ z hk]
  rw [group_getElem z hk] at h
  have hsplice := Memory.splice (s := []) h
  rw [Memory.store_nil, List.length_append, List.length_singleton] at hsplice
  exact hsplice

omit [DecidableEq B] in
/-- **A string is replaced.** -/
theorem set (h : Lies z m p ss) (hk : k < ss.length) (s : List B) :
    Lies z (Memory.store (StringPool.move m (start z ss p k + (s.length + 1)) (start z ss p (k + 1)) (stop z ss p - start z ss p (k + 1)))
      (start z ss p k) (s ++ [z])) p (ss.set k s) := by
  unfold Lies at h ⊢
  rw [stop_sub_start, group_set z s hk, start_succ z hk]
  rw [group_getElem z hk] at h
  have hsplice := Memory.splice (s := s ++ [z]) h
  rw [List.length_append, List.length_append, List.length_singleton] at hsplice
  exact hsplice

omit [DecidableEq B] in
/-- The cells from a string on. -/
theorem rest (h : Lies z m p ss) (k : Nat) : slice m (start z ss p k) (stop z ss p - start z ss p k) = group z (ss.drop k) := by
  unfold Lies at h
  rw [group_take_drop z ss k] at h
  rw [stop_sub_start]
  exact ((Memory.slice_eq_append m p _ _).1 h).2

/-- The string number `k` is found behind the ones before it. -/
theorem entry (h : Lies z m p ss) (hchars : ∀ s ∈ ss, z ∉ s) (hk : k ≤ ss.length) :
    (Packed.entry z false (slice m p (stop z ss p - p)) k).map (fun l => stop z ss p - l.length) = some (start z ss p k) := by
  have hlen : stop z ss p - p = (group z ss).length := Nat.add_sub_cancel_left _ _
  have hsub := stop_sub_start z ss p k
  have hle : start z ss p k ≤ stop z ss p := by
    unfold start stop
    rw [group_take_drop z ss k, List.length_append]
    omega
  rw [hlen, h, entry_group hchars hk, Option.map_some, ← hsub, Nat.sub_sub_self hle]

theorem text (h : Lies z m p ss) (hchars : ∀ s ∈ ss, z ∉ s) (hk : k < ss.length) :
    Packed.text z (slice m (start z ss p k) (stop z ss p - start z ss p k)) = ss[k] := by
  rw [h.rest, List.drop_eq_getElem_cons hk, group_line, List.append_assoc]
  exact text_line (hchars _ (List.getElem_mem hk)) _

omit [DecidableEq B] in
/-- Other cells do not matter. -/
theorem congr {m' : Nat → B} (h : Lies z m p ss) (hsame : ∀ x, p ≤ x → x < stop z ss p → m' x = m x) : Lies z m' p ss := by
  unfold Lies
  rw [Memory.slice_congr hsame, h]

end Lies

end Packed
