import Mathlib.Algebra.GroupWithZero.Nat
import Mathlib.Data.List.Infix
import Mathlib.Tactic.Common

/-!
# The words of a text

The words of a text are what stands between its blanks. `pieces` cuts the text at blanks too, but
what follows a cut is never one, so of two blanks the second begins a piece.
-/

namespace Words

variable {α : Type} (blank : α → Bool)

def words (s : List α) : List (List α) := (s.splitOnP blank).filter fun w => !w.isEmpty

/-- The text is cut at a blank; the element behind a cut belongs to the next piece. -/
def pieces : List α → List (List α)
  | [] => [[]]
  | [c] => if blank c then [[], []] else [[c]]
  | c :: d :: s => if blank c then [] :: (pieces s).modifyHead (d :: ·) else (pieces (d :: s)).modifyHead (c :: ·)

variable {blank}

@[simp] theorem words_nil : words blank ([] : List α) = [] := rfl

theorem words_append {b : α} (hb : blank b = true) (s t : List α) : words blank (s ++ b :: t) = words blank s ++ words blank t := by
  rw [words, List.splitOnP_append_cons s t hb, List.filter_append]
  rfl

theorem words_cons {b : α} (hb : blank b = true) (s : List α) : words blank (b :: s) = words blank s := words_append hb [] s

theorem words_append_blank {b : α} (hb : blank b = true) (s : List α) : words blank (s ++ [b]) = words blank s := by
  rw [words_append hb, words_nil, List.append_nil]

theorem words_of_free {s : List α} (h : ∀ c ∈ s, blank c = false) (hs : s ≠ []) : words blank s = [s] := by
  rw [words, List.splitOnP_eq_singleton h]
  simp [hs]

theorem words_free_append {s : List α} (h : ∀ c ∈ s, blank c = false) (hs : s ≠ []) {b : α} (hb : blank b = true) (t : List α) :
    words blank (s ++ b :: t) = s :: words blank t := by
  rw [words_append hb, words_of_free h hs]
  rfl

/-! ## Words lie in the text -/

theorem splitOnP_infix (s : List α) : ∃ first others, s.splitOnP blank = first :: others ∧ first <+: s ∧ ∀ w ∈ others, w <:+: s := by
  induction s with
  | nil => exact ⟨[], [], List.splitOnP_nil, List.nil_prefix, fun w hw => absurd hw List.not_mem_nil⟩
  | cons c s ih =>
    obtain ⟨first, others, hsplit, hfirst, hothers⟩ := ih
    rw [List.splitOnP_cons_eq_if_modifyHead, hsplit]
    split
    · refine ⟨[], first :: others, rfl, List.nil_prefix, fun w hw => List.infix_cons ?_⟩
      rcases List.mem_cons.1 hw with rfl | hw
      · exact hfirst.isInfix
      · exact hothers w hw
    · exact ⟨c :: first, others, rfl, List.cons_prefix_cons.2 ⟨rfl, hfirst⟩, fun w hw => List.infix_cons (hothers w hw)⟩

theorem infix_of_mem_words {s w : List α} (h : w ∈ words blank s) : w <:+: s := by
  obtain ⟨first, others, hsplit, hfirst, hothers⟩ := splitOnP_infix s
  rw [words, hsplit] at h
  rcases List.mem_cons.1 (List.mem_of_mem_filter h) with rfl | hw
  · exact hfirst.isInfix
  · exact hothers w hw

/-! ## Pieces -/

theorem pieces_ne_nil (s : List α) : pieces blank s ≠ [] := by
  fun_induction pieces blank s <;> simp_all

theorem modifyHead_modifyHead (x : List α) (c : α) (ps : List (List α)) :
    (ps.modifyHead (c :: ·)).modifyHead (x ++ ·) = ps.modifyHead (x ++ [c] ++ ·) := by
  cases ps <;> simp

/-- The pieces hold the words of the text, in order. -/
theorem words_pieces_append (x s : List α) : ((pieces blank s).modifyHead (x ++ ·)).flatMap (words blank) = words blank (x ++ s) := by
  fun_induction pieces blank s generalizing x with
  | case1 => simp
  | case2 c hc => simp [words_append_blank hc]
  | case3 c hc => simp
  | case4 c d s hc ih =>
    have hrest := ih [d]
    simp only [List.singleton_append] at hrest
    rw [List.modifyHead_cons, List.append_nil, List.flatMap_cons, hrest, words_append hc]
  | case5 c d s hc ih => rw [modifyHead_modifyHead, ih, List.append_assoc, List.singleton_append]

theorem words_pieces (s : List α) : (pieces blank s).flatMap (words blank) = words blank s := by
  obtain ⟨first, others, hpieces⟩ := List.exists_cons_of_ne_nil (@pieces_ne_nil _ blank s)
  have h := @words_pieces_append _ blank [] s
  rw [hpieces] at h ⊢
  exact h

/-- Only the first element of a piece can be a blank. -/
theorem pieces_free (s : List α) :
    ∃ first others, pieces blank s = first :: others ∧ (∀ c ∈ first, blank c = false) ∧ ∀ w ∈ others, ∀ c ∈ w.tail, blank c = false := by
  fun_induction pieces blank s with
  | case1 => exact ⟨[], [], rfl, by simp, by simp⟩
  | case2 c hc => exact ⟨[], [[]], rfl, by simp, by simp⟩
  | case3 c hc => exact ⟨[c], [], rfl, by simpa using hc, by simp⟩
  | case4 c d s hc ih =>
    obtain ⟨first, others, hpieces, hfirst, hothers⟩ := ih
    exact ⟨[], (d :: first) :: others, by rw [hpieces]; rfl, by simp, List.forall_mem_cons.2 ⟨hfirst, hothers⟩⟩
  | case5 c d s hc ih =>
    obtain ⟨first, others, hpieces, hfirst, hothers⟩ := ih
    exact ⟨c :: first, others, by rw [hpieces]; rfl, List.forall_mem_cons.2 ⟨by simpa using hc, hfirst⟩, hothers⟩

theorem tail_free {s w : List α} (h : w ∈ pieces blank s) : ∀ c ∈ w.tail, blank c = false := by
  obtain ⟨first, others, hpieces, hfirst, hothers⟩ := pieces_free s
  rw [hpieces] at h
  rcases List.mem_cons.1 h with rfl | h
  · exact fun c hc => hfirst c (List.mem_of_mem_tail hc)
  · exact hothers w h

theorem modifyHead_sum (d : α) {ps : List (List α)} (h : ps ≠ []) :
    ((ps.modifyHead (d :: ·)).map List.length).sum = (ps.map List.length).sum + 1 := by
  cases ps with
  | nil => exact absurd rfl h
  | cons w ws => simp only [List.modifyHead_cons, List.map_cons, List.sum_cons, List.length_cons]; omega

/-- A cut takes one element. -/
theorem pieces_sum (s : List α) : ((pieces blank s).map List.length).sum + (pieces blank s).length = s.length + 1 := by
  fun_induction pieces blank s with
  | case1 => rfl
  | case2 c hc => rfl
  | case3 c hc => rfl
  | case4 c d s hc ih =>
    rw [List.map_cons, List.sum_cons, modifyHead_sum d (pieces_ne_nil s)]
    simp only [List.length_nil, List.length_cons, List.length_modifyHead]
    omega
  | case5 c d s hc ih =>
    rw [modifyHead_sum c (pieces_ne_nil (d :: s)), List.length_modifyHead]
    simp only [List.length_cons] at ih ⊢
    omega

theorem mem_of_mem_pieces {s w : List α} (h : w ∈ pieces blank s) {c : α} (hc : c ∈ w) : c ∈ s := by
  fun_induction pieces blank s generalizing w c with
  | case1 => simp_all
  | case2 => simp_all
  | case3 => simp_all
  | case4 b d s hb ih =>
    obtain ⟨first, others, hpieces⟩ := List.exists_cons_of_ne_nil (pieces_ne_nil s)
    rw [hpieces] at h ih
    rcases List.mem_cons.1 h with rfl | h
    · exact absurd hc List.not_mem_nil
    · rcases List.mem_cons.1 h with rfl | h
      · rcases List.mem_cons.1 hc with rfl | hc
        · exact List.mem_cons_of_mem _ List.mem_cons_self
        · exact List.mem_cons_of_mem _ (List.mem_cons_of_mem _ (ih List.mem_cons_self hc))
      · exact List.mem_cons_of_mem _ (List.mem_cons_of_mem _ (ih (List.mem_cons_of_mem _ h) hc))
  | case5 b d s hb ih =>
    obtain ⟨first, others, hpieces⟩ := List.exists_cons_of_ne_nil (pieces_ne_nil (d :: s))
    rw [hpieces] at h ih
    rcases List.mem_cons.1 h with rfl | h
    · rcases List.mem_cons.1 hc with rfl | hc
      · exact List.mem_cons_self
      · exact List.mem_cons_of_mem _ (ih List.mem_cons_self hc)
    · exact List.mem_cons_of_mem _ (ih (List.mem_cons_of_mem _ h) hc)

end Words
