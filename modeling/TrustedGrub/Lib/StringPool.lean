import TrustedGrub.Lib.Memory
import TrustedGrub.Lib.Packed
import Mathlib.Data.Set.Insert

/-!
# Pools of strings

Strings with terminators in a flat memory, which is given out from the front. Pointers that are held
stay apart: a string that is written over one of them, or behind all of them, leaves the others as they
are.
-/

namespace StringPool
open Memory (slice store)
variable {B : Type} {z : B} {m : Nat → B} {size pos p q : Nat} {s t : List B} {held held' : Set Nat}

/-- The string that starts at `p`, in a memory of `size` cells. -/
def str [DecidableEq B] (z : B) (size : Nat) (m : Nat → B) (p : Nat) : List B := Packed.text z (slice m p (size - p))

/-- The string `t` lies at `p`. -/
structure Holds (z : B) (m : Nat → B) (p : Nat) (t : List B) : Prop where
  chars : z ∉ t
  cells : slice m p (t.length + 1) = t ++ [z]

theorem Holds.str [DecidableEq B] (h : Holds z m p t) (hsize : p + t.length < size) : str z size m p = t := by
  obtain ⟨k, hk⟩ : ∃ k, size - p = t.length + 1 + k := ⟨size - p - (t.length + 1), by omega⟩
  rw [StringPool.str, hk, Memory.slice_add, h.cells, List.append_assoc]
  exact Packed.text_line h.chars _

theorem holds_store (m : Nat → B) (p : Nat) (h : z ∉ t) : Holds z (store m p (t ++ [z])) p t :=
  ⟨h, Memory.slice_store m p List.length_append⟩

theorem Holds.store (h : Holds z m p t) (hapart : q + s.length < p ∨ p + t.length < q) : Holds z (store m q (s ++ [z])) p t := by
  refine ⟨h.chars, ?_⟩
  rw [Memory.slice_store_disjoint, h.cells]
  rw [List.length_append, List.length_singleton]
  omega

variable [DecidableEq B]

/-- The strings at the pointers that are held lie apart, and before `pos`. -/
structure Apart (z : B) (size : Nat) (m : Nat → B) (pos : Nat) (held : Set Nat) : Prop where
  fits : pos ≤ size
  string : ∀ p ∈ held, ∃ t, Holds z m p t ∧ p + t.length < pos
  apart : ∀ p ∈ held, ∀ q ∈ held, p ≠ q → p + (str z size m p).length < q ∨ q + (str z size m q).length < p

namespace Apart

theorem mono (h : Apart z size m pos held) (hsub : held' ⊆ held) : Apart z size m pos held' :=
  ⟨h.fits, fun p hp => h.string p (hsub hp), fun p hp q hq => h.apart p (hsub hp) q (hsub hq)⟩

theorem holds (h : Apart z size m pos held) (hp : p ∈ held) : Holds z m p (str z size m p) ∧ p + (str z size m p).length < pos := by
  obtain ⟨t, ht, hlt⟩ := h.string p hp
  rw [ht.str (Nat.lt_of_lt_of_le hlt h.fits)]
  exact ⟨ht, hlt⟩

/-- A string is written over one that is as long. -/
theorem overwrite_other (h : Apart z size m pos held) (hp : p ∈ held) (hlen : t.length ≤ (str z size m p).length) (hq : q ∈ held)
    (hne : q ≠ p) :
    str z size (store m p (t ++ [z])) q = str z size m q := by
  obtain ⟨hholds, hlt⟩ := h.holds hq
  have hapart := h.apart q hq p hp hne
  exact (hholds.store (by omega)).str (Nat.lt_of_lt_of_le hlt h.fits)

theorem overwrite_self (h : Apart z size m pos held) (hp : p ∈ held) (hlen : t.length ≤ (str z size m p).length) (ht : z ∉ t) :
    str z size (store m p (t ++ [z])) p = t := by
  have hlt := (h.holds hp).2
  have hfits := h.fits
  exact (holds_store m p ht).str (by omega)

theorem overwrite (h : Apart z size m pos held) (hp : p ∈ held) (hlen : t.length ≤ (str z size m p).length) (ht : z ∉ t) :
    Apart z size (store m p (t ++ [z])) pos held := by
  have hstr (q : Nat) (hq : q ∈ held) : (str z size (store m p (t ++ [z])) q).length ≤ (str z size m q).length := by
    by_cases hqp : q = p
    · rw [hqp, h.overwrite_self hp hlen ht]
      exact hlen
    · rw [h.overwrite_other hp hlen hq hqp]
  refine ⟨h.fits, fun q hq => ?_, fun q hq r hr hne => ?_⟩
  · by_cases hqp : q = p
    · subst hqp
      exact ⟨t, holds_store m q ht, Nat.lt_of_le_of_lt (Nat.add_le_add_left hlen q) (h.holds hq).2⟩
    · obtain ⟨hholds, hlt⟩ := h.holds hq
      have hapart := h.apart q hq p hp hqp
      exact ⟨_, hholds.store (by omega), hlt⟩
  · have hapart := h.apart q hq r hr hne
    have hq' := hstr q hq
    have hr' := hstr r hr
    omega

/-- A string is written behind all of them. -/
theorem alloc_other (h : Apart z size m pos held) (t : List B) (hq : q ∈ held) :
    str z size (store m pos (t ++ [z])) q = str z size m q := by
  obtain ⟨hholds, hlt⟩ := h.holds hq
  exact (hholds.store (.inr hlt)).str (Nat.lt_of_lt_of_le hlt h.fits)

theorem alloc_self (m : Nat → B) (hroom : pos + (t.length + 1) ≤ size) (ht : z ∉ t) : str z size (store m pos (t ++ [z])) pos = t :=
  (holds_store m pos ht).str (by omega)

theorem alloc_fresh (h : Apart z size m pos held) : pos ∉ held := fun hp => by
  have hlt := (h.holds hp).2
  omega

theorem alloc (h : Apart z size m pos held) (hroom : pos + (t.length + 1) ≤ size) (ht : z ∉ t) :
    Apart z size (store m pos (t ++ [z])) (pos + (t.length + 1)) (insert pos held) := by
  refine ⟨hroom, fun q hq => ?_, fun q hq r hr hne => ?_⟩
  · obtain rfl | hq := hq
    · exact ⟨t, holds_store m q ht, by omega⟩
    · obtain ⟨hholds, hlt⟩ := h.holds hq
      exact ⟨_, hholds.store (.inr hlt), by omega⟩
  · obtain rfl | hq := hq
    · obtain rfl | hr := hr
      · exact absurd rfl hne
      · rw [h.alloc_other t hr]
        exact .inr (h.holds hr).2
    · obtain rfl | hr := hr
      · rw [h.alloc_other t hq]
        exact .inl (h.holds hq).2
      · rw [h.alloc_other t hq, h.alloc_other t hr]
        exact h.apart q hq r hr hne

end Apart

end StringPool
