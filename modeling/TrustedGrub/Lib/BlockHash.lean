import Mathlib.Data.List.Basic
import Mathlib.Tactic.Common

/-!
# Buffered block hashing

An iterated hash folds a compression function over the consecutive `n`-symbol
blocks of a message. A streaming implementation sees the message in chunks: it
holds the chaining value of the whole blocks seen so far and buffers the
incomplete rest. `absorb` is the fold, `rest` the part still buffered, and
`absorb_append`/`rest_append` say that a chunk only meets the two of them.
The block length, the chaining values and the symbols are parameters.
-/

namespace BlockHash

variable {S B : Type} {n : Nat} {f : S → List B → S}

/-- Compress the first `k` blocks of `m`. -/
def absorbN (n : Nat) (f : S → List B → S) : Nat → S → List B → S
  | 0, s, _ => s
  | k + 1, s, m => absorbN n f k (f s (m.take n)) (m.drop n)

/-- Compress every whole block of `m`. -/
def absorb (n : Nat) (f : S → List B → S) (s : S) (m : List B) : S :=
  absorbN n f (m.length / n) s m

/-- What follows the last whole block of `m`. -/
def rest (n : Nat) (m : List B) : List B :=
  m.drop (n * (m.length / n))

theorem rest_length (m : List B) : (rest n m).length = m.length % n := by
  have h := Nat.div_add_mod m.length n
  simp only [rest, List.length_drop]
  omega

theorem absorb_of_lt {s : S} {m : List B} (h : m.length < n) : absorb n f s m = s := by
  simp only [absorb, Nat.div_eq_of_lt h, absorbN]

theorem rest_of_lt {m : List B} (h : m.length < n) : rest n m = m := by
  simp only [rest, Nat.div_eq_of_lt h, Nat.mul_zero, List.drop_zero]

theorem rest_nil : rest n ([] : List B) = [] := by
  simp only [rest, List.drop_nil]

theorem absorb_block (hn : 0 < n) {s : S} {b m : List B} (hb : b.length = n) :
    absorb n f s (b ++ m) = absorb n f (f s b) m := by
  have hlen : (b ++ m).length / n = m.length / n + 1 := by
    rw [List.length_append, hb, Nat.add_div_left _ hn]
  simp only [absorb, hlen, absorbN]
  rw [List.take_left' hb, List.drop_left' hb]

theorem rest_block (hn : 0 < n) {b m : List B} (hb : b.length = n) : rest n (b ++ m) = rest n m := by
  have hlen : (b ++ m).length / n = m.length / n + 1 := by
    rw [List.length_append, hb, Nat.add_div_left _ hn]
  simp only [rest, hlen, Nat.mul_add_one]
  rw [Nat.add_comm, ← List.drop_drop, List.drop_left' hb]

theorem absorb_one (hn : 0 < n) {s : S} {b : List B} (hb : b.length = n) : absorb n f s b = f s b := by
  have h := absorb_block (f := f) (s := s) (m := []) hn hb
  rwa [List.append_nil, absorb_of_lt (s := f s b) hn] at h

/-- A message that is not shorter than a block starts with one. -/
theorem split_block {m : List B} (h : n ≤ m.length) :
    ∃ b m', m = b ++ m' ∧ b.length = n ∧ m'.length = m.length - n :=
  ⟨m.take n, m.drop n, (List.take_append_drop n m).symm, by simp [h], by simp⟩

/-- Streaming: the second part of a message meets the chaining value and the
rest that the first part left. The induction strips blocks off the first part. -/
theorem absorb_rest_append (hn : 0 < n) (m m' : List B) :
    ∀ s : S, absorb n f s (m ++ m') = absorb n f (absorb n f s m) (rest n m ++ m') ∧
      rest n (m ++ m') = rest n (rest n m ++ m') := by
  induction hl : m.length using Nat.strongRecOn generalizing m with
  | ind l ih =>
    intro s
    by_cases hlt : m.length < n
    · rw [absorb_of_lt hlt, rest_of_lt hlt]
      exact ⟨rfl, rfl⟩
    · obtain ⟨b, t, rfl, hb, ht⟩ := split_block (Nat.le_of_not_lt hlt)
      have hshort : t.length < l := by omega
      obtain ⟨ha, hr⟩ := ih _ hshort t rfl (f s b)
      rw [List.append_assoc, absorb_block hn hb, rest_block hn hb, absorb_block hn hb, rest_block hn hb]
      exact ⟨ha, hr⟩

theorem absorb_append (hn : 0 < n) (s : S) (m m' : List B) :
    absorb n f s (m ++ m') = absorb n f (absorb n f s m) (rest n m ++ m') :=
  (absorb_rest_append hn m m' s).1

theorem rest_append (hn : 0 < n) (m m' : List B) : rest n (m ++ m') = rest n (rest n m ++ m') :=
  (absorb_rest_append (f := fun (s : Unit) _ => s) hn m m' ()).2

end BlockHash
