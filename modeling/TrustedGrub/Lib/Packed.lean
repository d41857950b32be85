import Mathlib.Data.List.TakeWhile

/-!
# Packed strings

Strings that lie one behind the other, each with a terminator behind it. A group of strings ends
with a terminator of its own, so that its strings can not be empty.
-/

namespace Packed
variable {B : Type} [DecidableEq B] {z : B} {s : List B} {ss : List (List B)} {gs : List (List (List B))} {l : List B} {k : Nat}

/-- The strings, each with its terminator. -/
def lines (z : B) (ss : List (List B)) : List B := ss.flatMap fun s => s ++ [z]

/-- A group of strings. -/
def group (z : B) (ss : List (List B)) : List B := lines z ss ++ [z]

/-- What is behind the first string, or behind the first group. -/
def skip (z : B) (nested : Bool) : List B → Option (List B)
  | [] => none
  | c :: l =>
    if c ≠ z then skip z nested l
    else if nested then
      match l with
      | [] => none
      | c :: l => if c ≠ z then skip z nested l else some l
    else some l

/-- What is behind `num` of them. -/
def entry (z : B) (nested : Bool) : List B → Nat → Option (List B)
  | l, 0 => some l
  | l, num + 1 => (skip z nested l).bind fun l => entry z nested l num

/-- The string that starts here. -/
def text (z : B) (l : List B) : List B := l.takeWhile fun c => c ≠ z

/-- The strings of the group that starts here. -/
def texts (z : B) (l : List B) : List (List B) :=
  if text z l = [] then [] else text z l :: texts z (l.drop ((text z l).length + 1))
termination_by l.length
decreasing_by
  next hsome =>
  cases l with
  | nil => exact absurd rfl hsome
  | cons c l =>
    rw [List.length_drop, List.length_cons]
    omega

/-! ## Strings -/

omit [DecidableEq B] in
theorem lines_cons (z : B) (s : List B) (ss : List (List B)) (l : List B) : lines z (s :: ss) ++ l = s ++ z :: (lines z ss ++ l) := by
  simp only [lines, List.flatMap_cons, List.append_assoc, List.cons_append, List.nil_append]

omit [DecidableEq B] in
theorem group_cons (z : B) (s : List B) (ss : List (List B)) (l : List B) : group z (s :: ss) ++ l = s ++ z :: (group z ss ++ l) := by
  unfold group
  rw [List.append_assoc, lines_cons, List.append_assoc]

theorem skip_chars (nested : Bool) (h : z ∉ s) (l : List B) : skip z nested (s ++ l) = skip z nested l := by
  induction s with
  | nil => rfl
  | cons c s ih =>
    have hc : c ≠ z := fun heq => h (heq ▸ List.mem_cons_self)
    rw [List.cons_append, skip.eq_def]
    show (if c ≠ z then _ else _) = _
    rw [if_pos hc]
    exact ih fun hs => h (List.mem_cons_of_mem c hs)

theorem skip_line (h : z ∉ s) (l : List B) : skip z false (s ++ z :: l) = some l := by
  rw [skip_chars false h, skip.eq_def]
  show (if z ≠ z then _ else _) = _
  rw [if_neg (not_not.2 rfl)]
  rfl

/-- Behind the last character of a string, a group goes on with a character or ends. -/
theorem skip_next (c : B) (l : List B) : skip z true (z :: c :: l) = if c ≠ z then skip z true l else some l := by
  rw [skip.eq_def]
  show (if z ≠ z then _ else _) = _
  rw [if_neg (not_not.2 rfl)]
  rfl

theorem text_line (h : z ∉ s) (l : List B) : text z (s ++ z :: l) = s := by
  have hchars : ∀ c ∈ s, decide (c ≠ z) = true := fun c hc => decide_eq_true fun heq => h (heq ▸ hc)
  have hend : (z :: l).takeWhile (fun c => decide (c ≠ z)) = [] :=
    List.takeWhile_cons_of_neg fun hz => absurd rfl (of_decide_eq_true hz)
  unfold text
  rw [List.takeWhile_append_of_pos hchars, hend, List.append_nil]

theorem not_mem_text (l : List B) : z ∉ text z l := by
  intro h
  have hne : decide (z ≠ z) = true := List.mem_takeWhile_imp (p := fun c => decide (c ≠ z)) h
  exact absurd rfl (of_decide_eq_true hne)

theorem entry_lines (h : ∀ s ∈ ss, z ∉ s) (hk : k ≤ ss.length) (l : List B) :
    entry z false (lines z ss ++ l) k = some (lines z (ss.drop k) ++ l) := by
  induction k generalizing ss with
  | zero => rfl
  | succ k ih =>
    cases ss with
    | nil => exact absurd hk (Nat.not_succ_le_zero k)
    | cons s ss =>
      rw [lines_cons, entry, skip_line (h s List.mem_cons_self), Option.bind_some, List.drop_succ_cons]
      exact ih (fun t ht => h t (List.mem_cons_of_mem s ht)) (Nat.le_of_succ_le_succ hk)

/-- The strings of a group: they are not empty. -/
def Proper (z : B) (ss : List (List B)) : Prop := ∀ s ∈ ss, z ∉ s ∧ s ≠ []

theorem skip_rest (hs : z ∉ s) (h : Proper z ss) (l : List B) : skip z true (s ++ z :: (group z ss ++ l)) = some l := by
  rw [skip_chars true hs]
  induction ss generalizing s with
  | nil => exact (skip_next z l).trans (if_neg (not_not.2 rfl))
  | cons t ss ih =>
    obtain ⟨ht, hne⟩ := h t List.mem_cons_self
    cases t with
    | nil => exact absurd rfl hne
    | cons c t =>
      have hc : c ≠ z := fun heq => ht (heq ▸ List.mem_cons_self)
      have ht : z ∉ t := fun hz => ht (List.mem_cons_of_mem c hz)
      rw [group_cons, List.cons_append, skip_next, if_pos hc, skip_chars true ht]
      exact ih ht fun s hs => h s (List.mem_cons_of_mem _ hs)

theorem skip_group (h : Proper z ss) (hne : ss ≠ []) (l : List B) : skip z true (group z ss ++ l) = some l := by
  cases ss with
  | nil => exact absurd rfl hne
  | cons s ss =>
    rw [group_cons]
    exact skip_rest (h s List.mem_cons_self).1 (fun t ht => h t (List.mem_cons_of_mem s ht)) l

theorem texts_group (h : Proper z ss) (l : List B) : texts z (group z ss ++ l) = ss := by
  induction ss with
  | nil =>
    have hempty : text z (group z [] ++ l) = [] := text_line List.not_mem_nil l
    rw [texts, if_pos hempty]
  | cons s ss ih =>
    obtain ⟨hs, hne⟩ := h s List.mem_cons_self
    rw [group_cons, texts, text_line hs, if_neg hne, List.drop_append, List.drop_of_length_le (Nat.le_succ _), List.nil_append,
      Nat.add_sub_cancel_left]
    exact congrArg (s :: ·) (ih fun t ht => h t (List.mem_cons_of_mem s ht))

theorem entry_groups (h : ∀ ss ∈ gs, Proper z ss ∧ ss ≠ []) (hk : k ≤ gs.length) (l : List B) :
    entry z true (gs.flatMap (group z) ++ l) k = some ((gs.drop k).flatMap (group z) ++ l) := by
  induction k generalizing gs with
  | zero => rfl
  | succ k ih =>
    cases gs with
    | nil => exact absurd hk (Nat.not_succ_le_zero k)
    | cons ss gs =>
      obtain ⟨hss, hne⟩ := h ss List.mem_cons_self
      rw [List.flatMap_cons, List.append_assoc, entry, skip_group hss hne, Option.bind_some, List.drop_succ_cons]
      exact ih (fun t ht => h t (List.mem_cons_of_mem ss ht)) (Nat.le_of_succ_le_succ hk)

end Packed
