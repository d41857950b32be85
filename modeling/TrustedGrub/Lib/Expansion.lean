import Mathlib.Data.List.TakeWhile
import Mathlib.Tactic.Common

/-!
# Expansion of references

A text with references in it, which are names between a mark and two brackets. A reference ends at the
first right bracket behind its beginning. Expansion puts the value of a name in the place of each
reference and keeps a reference that has none.
-/

namespace Expansion
variable {B : Type} [DecidableEq B]

/-- How a reference is written. -/
structure Quotes (B : Type) where
  mark : B
  left : B
  right : B

variable (q : Quotes B) {value : List B → Option (List B)} {n v t u rest : List B} {x : B}

def Quotes.reference (q : Quotes B) (n : List B) : List B := q.mark :: q.left :: (n ++ [q.right])

/-- The name of the reference that a text begins with. -/
def Quotes.name : List B → Option (List B)
  | x :: y :: t => if x = q.mark ∧ y = q.left ∧ q.right ∈ t then some (t.takeWhile fun c => c ≠ q.right) else none
  | _ => none

/-- The names of the references, where the first so many characters belong to one that has been counted. -/
def namesFrom : Nat → List B → List (List B)
  | _, [] => []
  | k + 1, _ :: t => namesFrom k t
  | 0, x :: t =>
    match q.name (x :: t) with
    | some n => n :: namesFrom (n.length + 2) t
    | none => namesFrom 0 t

def names (t : List B) : List (List B) := namesFrom q 0 t

/-- The expansion, where the first so many characters belong to a reference that has been put out. -/
def expandFrom (value : List B → Option (List B)) : Nat → List B → List B
  | _, [] => []
  | k + 1, _ :: t => expandFrom value k t
  | 0, x :: t =>
    match q.name (x :: t) with
    | some n => (value n).getD (q.reference n) ++ expandFrom value (n.length + 2) t
    | none => x :: expandFrom value 0 t

def expand (value : List B → Option (List B)) (t : List B) : List B := expandFrom q value 0 t

/-- There is no reference in the text. -/
def Free (t : List B) : Prop := names q t = []

/-- Each reference in the text has a value. -/
def Known (value : List B → Option (List B)) (t : List B) : Prop := ∀ n ∈ names q t, (value n).isSome

/-- The references of a text, from the left to the right. -/
inductive Scan : List B → Prop
  | nil : Scan []
  | copy {x : B} {t : List B} (plain : q.name (x :: t) = none) (tail : Scan t) : Scan (x :: t)
  | reference {n rest : List B} (name : q.right ∉ n) (tail : Scan rest) : Scan (q.reference n ++ rest)

instance (t : List B) : Decidable (Free q t) := inferInstanceAs (Decidable (names q t = []))

instance (value : List B → Option (List B)) (t : List B) : Decidable (Known q value t) :=
  inferInstanceAs (Decidable (∀ n ∈ names q t, (value n).isSome))

variable {q}

omit [DecidableEq B] in
theorem Quotes.reference_append (n rest : List B) : q.reference n ++ rest = q.mark :: q.left :: (n ++ q.right :: rest) := by
  simp only [Quotes.reference, List.cons_append, List.append_assoc, List.nil_append]

omit [DecidableEq B] in
@[simp] theorem Quotes.reference_length (n : List B) : (q.reference n).length = n.length + 3 := by
  simp [Quotes.reference]

omit [DecidableEq B] in
theorem Quotes.mem_reference (h : x ∈ n) : x ∈ q.reference n :=
  List.mem_cons_of_mem _ (List.mem_cons_of_mem _ (List.mem_append_left _ h))

/-- A text that begins with a reference. -/
theorem Quotes.name_reference (hn : q.right ∉ n) (rest : List B) : q.name (q.reference n ++ rest) = some n := by
  have hall : ∀ c ∈ n, decide (c ≠ q.right) = true := by
    intro c hc
    exact decide_eq_true fun heq => hn (heq ▸ hc)
  rw [Quotes.reference_append, Quotes.name, if_pos ⟨rfl, rfl, by simp⟩, List.takeWhile_append_of_pos hall,
    List.takeWhile_cons_of_neg (by simp), List.append_nil]

theorem Quotes.name_eq_some (h : q.name t = some n) : q.right ∉ n ∧ ∃ rest, t = q.reference n ++ rest := by
  match t, h with
  | [], h => cases h
  | [_], h => cases h
  | x :: y :: t, h =>
    rw [Quotes.name] at h
    split at h
    next hopen =>
      obtain ⟨rfl, rfl, hright⟩ := hopen
      obtain rfl := Option.some.inj h
      refine ⟨fun hin => by simpa using List.mem_takeWhile_imp hin, ?_⟩
      have hsplit := List.takeWhile_append_dropWhile (p := fun c => decide (c ≠ q.right)) (l := t)
      cases hrest : t.dropWhile fun c => decide (c ≠ q.right) with
      | nil =>
        have hno := List.dropWhile_eq_nil_iff.1 hrest _ hright
        exact absurd rfl (of_decide_eq_true hno)
      | cons c rest =>
        have hc := List.head?_dropWhile_not (fun c => decide (c ≠ q.right)) t
        rw [hrest] at hc hsplit
        have heq : c = q.right := by simpa using hc
        refine ⟨rest, ?_⟩
        rw [heq] at hsplit
        rw [Quotes.reference_append, hsplit]
    next => cases h

theorem scan (t : List B) : Scan q t := by
  generalize hsize : t.length = size
  induction size using Nat.strong_induction_on generalizing t with
  | _ size ih =>
    subst hsize
    match t with
    | [] => exact .nil
    | x :: t =>
      cases hname : q.name (x :: t) with
      | none => exact .copy hname (ih _ (Nat.lt_succ_self _) t rfl)
      | some n =>
        obtain ⟨hn, rest, hrest⟩ := Quotes.name_eq_some hname
        have hlen : rest.length < (x :: t).length := by
          rw [hrest, List.length_append, Quotes.reference_length]
          omega
        rw [hrest]
        exact .reference hn (ih _ hlen rest rfl)

/-! ## The equations of the functions -/

theorem namesFrom_append (u t : List B) : namesFrom q u.length (u ++ t) = names q t := by
  induction u with
  | nil => rfl
  | cons x u ih => exact ih

theorem expandFrom_append (u t : List B) : expandFrom q value u.length (u ++ t) = expand q value t := by
  induction u with
  | nil => rfl
  | cons x u ih => exact ih

theorem names_copy (h : q.name (x :: t) = none) : names q (x :: t) = names q t := by
  rw [names, namesFrom, h]
  rfl

theorem expand_copy (h : q.name (x :: t) = none) : expand q value (x :: t) = x :: expand q value t := by
  rw [expand, expandFrom, h]
  rfl

theorem names_reference (hn : q.right ∉ n) (rest : List B) : names q (q.reference n ++ rest) = n :: names q rest := by
  have hname := Quotes.name_reference hn rest
  have htail := namesFrom_append (q := q) (q.left :: (n ++ [q.right])) rest
  rw [List.cons_append, List.append_assoc, List.singleton_append, List.length_cons, List.length_append, List.length_singleton] at htail
  rw [Quotes.reference_append] at hname ⊢
  rw [names, namesFrom, hname]
  exact congrArg (n :: ·) htail

theorem expand_reference (hn : q.right ∉ n) (rest : List B) :
    expand q value (q.reference n ++ rest) = (value n).getD (q.reference n) ++ expand q value rest := by
  have hname := Quotes.name_reference hn rest
  have htail := @expandFrom_append _ _ q value (q.left :: (n ++ [q.right])) rest
  rw [List.cons_append, List.append_assoc, List.singleton_append, List.length_cons, List.length_append, List.length_singleton] at htail
  rw [Quotes.reference_append] at hname ⊢
  rw [expand, expandFrom, hname]
  exact congrArg ((value n).getD (q.reference n) ++ ·) htail

/-! ## Texts without references -/

theorem Free.name_eq_none (h : Free q t) : q.name t = none := by
  cases hname : q.name t with
  | none => rfl
  | some n =>
    obtain ⟨hn, rest, rfl⟩ := Quotes.name_eq_some hname
    rw [Free, names_reference hn] at h
    exact absurd h (List.cons_ne_nil _ _)

theorem Free.tail (h : Free q (x :: t)) : Free q t := (names_copy h.name_eq_none).symm.trans h

theorem Free.suffix (h : Free q (u ++ t)) : Free q t := by
  induction u with
  | nil => exact h
  | cons x u ih => exact ih h.tail

/-- A text with a reference somewhere in it. -/
theorem not_free (hn : q.right ∉ n) (u rest : List B) : ¬ Free q (u ++ (q.reference n ++ rest)) := by
  intro h
  have hname := h.suffix.name_eq_none
  rw [Quotes.name_reference hn] at hname
  cases hname

theorem Free.expand (h : Free q t) : expand q value t = t := by
  induction scan (q := q) t with
  | nil => rfl
  | copy plain _ ih => rw [expand_copy plain, ih h.tail]
  | reference name _ _ => exact absurd h (not_free name [] _)

theorem Free.known (h : Free q t) (value : List B → Option (List B)) : Known q value t := by
  intro n hn
  rw [Free] at h
  rw [h] at hn
  cases hn

/-! ## Texts whose references have values -/

theorem known_copy (h : q.name (x :: t) = none) : Known q value (x :: t) ↔ Known q value t := by
  rw [Known, names_copy h]
  rfl

theorem known_reference (hn : q.right ∉ n) (rest : List B) :
    Known q value (q.reference n ++ rest) ↔ (value n).isSome ∧ Known q value rest := by
  rw [Known, names_reference hn, List.forall_mem_cons]
  rfl

/-- A reference without a value is still there behind the expansion. -/
theorem known_of_free (h : Free q (expand q value t)) : Known q value t := by
  induction scan (q := q) t with
  | nil => exact (show Free q [] from rfl).known value
  | copy plain _ ih =>
    rw [expand_copy plain] at h
    exact (known_copy plain).2 (ih h.tail)
  | @reference n rest name _ ih =>
    rw [expand_reference name] at h
    refine (known_reference name rest).2 ⟨?_, ih h.suffix⟩
    cases hvalue : value n with
    | some v => rfl
    | none =>
      rw [hvalue] at h
      exact absurd h (not_free name [] _)

theorem not_mem_expand (ht : x ∉ t) (hvalue : ∀ n v, value n = some v → x ∉ v) : x ∉ expand q value t := by
  induction scan (q := q) t with
  | nil => exact ht
  | copy plain _ ih =>
    rw [expand_copy plain, List.mem_cons, not_or]
    rw [List.mem_cons, not_or] at ht
    exact ⟨ht.1, ih ht.2⟩
  | @reference n rest name _ ih =>
    rw [expand_reference name, List.mem_append, not_or]
    rw [List.mem_append, not_or] at ht
    refine ⟨?_, ih ht.2⟩
    cases hv : value n with
    | none => exact ht.1
    | some v => exact hvalue n v hv

end Expansion
