import Mathlib.Data.List.Basic

/-!
# Longest common prefixes

The longest common prefix of some strings is their greatest lower bound in the prefix order.
It does not depend on the order of the strings, and it can be had by taking in one string
after the other.
-/

namespace CommonPrefix
variable {α : Type} {strings strings' : List (List α)} {p q s t : List α}

/-- The longest prefix that all the strings have. -/
structure IsLongest (strings : List (List α)) (p : List α) : Prop where
  below : ∀ s ∈ strings, p <+: s
  greatest : ∀ q, (∀ s ∈ strings, q <+: s) → q <+: p

theorem IsLongest.unique (h : IsLongest strings p) (h' : IsLongest strings q) : p = q := by
  apply List.IsPrefix.eq_of_length_le
  · exact h'.greatest p h.below
  · exact (h.greatest q h'.below).length_le

/-- Only which strings there are matters. -/
theorem IsLongest.congr (h : IsLongest strings p) (hsame : ∀ s, s ∈ strings' ↔ s ∈ strings) : IsLongest strings' p := by
  constructor
  · intro s hs
    exact h.below s ((hsame s).1 hs)
  · intro q hq
    exact h.greatest q fun s hs => hq s ((hsame s).2 hs)

theorem isLongest_singleton (s : List α) : IsLongest [s] s := by
  constructor
  · intro t ht
    obtain rfl := List.mem_singleton.1 ht
    exact List.prefix_refl t
  · exact fun q hq => hq s (List.mem_singleton_self s)

variable [DecidableEq α]

/-- The longest common prefix of two strings. -/
def common : List α → List α → List α
  | c :: s, d :: t => if c = d then c :: common s t else []
  | _, _ => []

theorem common_prefix (s t : List α) : common s t <+: s ∧ common s t <+: t := by
  induction s generalizing t with
  | nil => simp [common]
  | cons c s ih =>
    cases t with
    | nil => simp [common]
    | cons d t =>
      rw [common]
      split_ifs with hcd
      · subst hcd
        simpa only [List.cons_prefix_cons, true_and] using ih t
      · simp

theorem prefix_common (hs : q <+: s) (ht : q <+: t) : q <+: common s t := by
  induction q generalizing s t with
  | nil => exact List.nil_prefix
  | cons c q ih =>
    obtain ⟨s', rfl⟩ := hs
    obtain ⟨t', rfl⟩ := ht
    simp only [List.cons_append, common, if_true, List.cons_prefix_cons, true_and]
    apply ih
    · exact List.prefix_append q s'
    · exact List.prefix_append q t'

/-- One more string. -/
theorem IsLongest.narrow (h : IsLongest strings p) (s : List α) : IsLongest (strings ++ [s]) (common p s) := by
  obtain ⟨hp, hs⟩ := common_prefix p s
  constructor
  · intro t ht
    obtain ht | ht := List.mem_append.1 ht
    · exact hp.trans (h.below t ht)
    · rw [List.mem_singleton.1 ht]
      exact hs
  · intro q hq
    apply prefix_common
    · exact h.greatest q fun t ht => hq t (List.mem_append_left _ ht)
    · exact hq s (List.mem_append_right _ (List.mem_singleton_self s))

end CommonPrefix
