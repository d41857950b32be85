import TrustedGrub.Sha1.Fips180
import Mathlib.Tactic.Ring

/-!
# `sha1_process`: one block of the boot-time SHA-1

`stage2/sha1.c` unrolls the eighty rounds as calls of the macro `P` with the five
registers permuted, and keeps the schedule in sixteen words overwritten in
place. Five calls bring the registers back to their own names, so the rounds are
sixteen groups of five: `group_steps` proves one group equal to five steps of the
standard, and `process_eq_compress` the whole block.
-/

namespace TrustedGrub.Sha1
open Fips180 (Byte Word Words)

/-- `CONCAT_4_BYTES (w32, w8, w8_i)`. -/
def concat4Bytes (w8 : List Byte) (i : Nat) : Word :=
  ((w8.getD i 0).setWidth 32 <<< 24) ||| ((w8.getD (i + 1) 0).setWidth 32 <<< 16) |||
    ((w8.getD (i + 2) 0).setWidth 32 <<< 8) ||| (w8.getD (i + 3) 0).setWidth 32

/-- `ROTATE_N_LEFT (x, n)`. -/
def rotateNLeft (x : Word) (n : Nat) : Word := (x <<< n) ||| ((x &&& 0xFFFFFFFF#32) >>> (32 - n))

/-- The registers `A .. E` and the words `W [16]`. -/
structure Regs where
  A : Word
  B : Word
  C : Word
  D : Word
  E : Word
  W : List Word
  deriving DecidableEq

/-- The word the call of `P` for round `t` is given, and `W` after its
evaluation: `W [t]` itself up to round 15, then `EXTENDED_W (t)`, which stores
the extension over the word it replaces. -/
def extendedW (W : List Word) (t : Nat) : Word × List Word :=
  if t < 16 then (W.getD t 0, W)
  else
    let temp := W.getD ((t - 3) % 16) 0 ^^^ W.getD ((t - 8) % 16) 0 ^^^ W.getD ((t - 14) % 16) 0 ^^^
      W.getD (t % 16) 0
    (rotateNLeft temp 1, W.set (t % 16) (rotateNLeft temp 1))

/-- The macro `P (a, b, c, d, e, Wi)`: the new values of `e` and `b`. -/
def P (F : Word → Word → Word → Word) (K a b c d e Wi : Word) : Word × Word :=
  (e + (rotateNLeft a 5 + F b c d + K + Wi), rotateNLeft b 30)

/-- Rounds `t .. t + 4`, with the register permutations of the source. -/
def group (F : Word → Word → Word → Word) (K : Word) (t : Nat) (r : Regs) : Regs :=
  let (w, W) := extendedW r.W t
  let (E, B) := P F K r.A r.B r.C r.D r.E w
  let (w, W) := extendedW W (t + 1)
  let (D, A) := P F K E r.A B r.C r.D w
  let (w, W) := extendedW W (t + 2)
  let (C, E) := P F K D E A B r.C w
  let (w, W) := extendedW W (t + 3)
  let (B, D) := P F K C D E A B w
  let (w, W) := extendedW W (t + 4)
  let (A, C) := P F K B C D E A w
  ⟨A, B, C, D, E, W⟩

/-- `F` and `K` as `#define`d for the rounds from `t` on. -/
def F (t : Nat) (x y z : Word) : Word :=
  if t < 20 then z ^^^ (x &&& (y ^^^ z))
  else if t < 40 then x ^^^ y ^^^ z
  else if t < 60 then (x &&& y) ||| (z &&& (x ||| y))
  else x ^^^ y ^^^ z

def K (t : Nat) : Word :=
  if t < 20 then 0x5A827999#32
  else if t < 40 then 0x6ED9EBA1#32
  else if t < 60 then 0x8F1BBCDC#32
  else 0xCA62C1D6#32

/-- The first `5 * k` rounds. -/
def rounds (r : Regs) (k : Nat) : Regs := (List.range k).foldl (fun r i => group (F (5 * i)) (K (5 * i)) (5 * i) r) r

/-- `W [0] .. W [15]` as the sixteen `CONCAT_4_BYTES` fill them. -/
def firstW (byte64Block : List Byte) : List Word := (List.range 16).map fun i => concat4Bytes byte64Block (4 * i)

/-- `sha1_process` on the vector of the context. -/
def sha1Process (vector : Words) (byte64Block : List Byte) : Words :=
  let r := rounds ⟨vector.a, vector.b, vector.c, vector.d, vector.e, firstW byte64Block⟩ 16
  ⟨vector.a + r.A, vector.b + r.B, vector.c + r.C, vector.d + r.D, vector.e + r.E⟩

/-! ## The operations are the standard's -/

theorem rotateNLeft_eq (x : Word) (n : Nat) : rotateNLeft x n = Fips180.rotl n x := by
  have hmask : x &&& 0xFFFFFFFF#32 = x := by
    rw [show (0xFFFFFFFF#32 : Word) = BitVec.allOnes 32 by decide, BitVec.and_allOnes]
  simp only [rotateNLeft, Fips180.rotl, hmask]

theorem concat4Bytes_eq (block : List Byte) (i : Nat) : concat4Bytes block i = Fips180.wordAt block i := by
  unfold concat4Bytes Fips180.wordAt
  generalize block.getD i 0 = a
  generalize block.getD (i + 1) 0 = b
  generalize block.getD (i + 2) 0 = c
  generalize block.getD (i + 3) 0 = d
  apply BitVec.eq_of_getLsbD_eq
  intro j hj
  simp only [BitVec.getLsbD_or, BitVec.getLsbD_shiftLeft, BitVec.getLsbD_setWidth, BitVec.getLsbD_cast,
    BitVec.getLsbD_append, hj, decide_true, Bool.true_and]
  -- the four byte ranges, from the least significant
  by_cases h8 : j < 8
  · simp [h8, show j < 16 by omega, show j < 24 by omega]
  · rw [BitVec.getLsbD_of_ge d j (by omega)]
    by_cases h16 : j < 16
    · simp [h8, h16, show j < 24 by omega, show j - 8 < 32 by omega]
      intro h; omega
    · rw [BitVec.getLsbD_of_ge c (j - 8) (by omega)]
      by_cases h24 : j < 24
      · simp [h8, h16, h24, show j - 16 < 32 by omega, show ¬ j - 8 < 8 by omega, Nat.sub_sub]
        intro h; omega
      · rw [BitVec.getLsbD_of_ge b (j - 16) (by omega)]
        simp [h8, h16, h24, show j - 24 < 32 by omega, show ¬ j - 8 < 8 by omega, Nat.sub_sub]
        intro h; omega

theorem K_eq (t : Nat) : K t = Fips180.const t := rfl

theorem choose_eq (x y z : Word) : z ^^^ (x &&& (y ^^^ z)) = (x &&& y) ||| (~~~x &&& z) := by
  apply BitVec.eq_of_getLsbD_eq
  intro i hi
  simp only [BitVec.getLsbD_xor, BitVec.getLsbD_and, BitVec.getLsbD_or, BitVec.getLsbD_not, hi, decide_true,
    Bool.true_and]
  cases x.getLsbD i <;> cases y.getLsbD i <;> cases z.getLsbD i <;> rfl

theorem majority_eq (x y z : Word) : (x &&& y) ||| (z &&& (x ||| y)) = (x &&& y) ||| (x &&& z) ||| (y &&& z) := by
  apply BitVec.eq_of_getLsbD_eq
  intro i hi
  simp only [BitVec.getLsbD_and, BitVec.getLsbD_or]
  cases x.getLsbD i <;> cases y.getLsbD i <;> cases z.getLsbD i <;> rfl

theorem F_eq (t : Nat) (x y z : Word) : F t x y z = Fips180.func t x y z := by
  simp only [F, Fips180.func, choose_eq, majority_eq]

/-! ## The schedule in place -/

/-- Before round `t`, `W` holds the last sixteen words of the schedule, each at
its index modulo sixteen. -/
structure Holds (block : List Byte) (t : Nat) (W : List Word) : Prop where
  length : W.length = 16
  words : ∀ i, i < max t 16 → t ≤ i + 16 → W.getD (i % 16) 0 = Fips180.schedule block i

theorem Holds.first (block : List Byte) :
    Holds block 0 (firstW block) where
  length := by simp [firstW]
  words i hi _ := by
    have h : i < 16 := by omega
    rw [Nat.mod_eq_of_lt h, Fips180.schedule, if_pos h, ← concat4Bytes_eq]
    simp [firstW, List.getD_eq_getElem?_getD, h]

/-- One evaluation of the round's word yields the schedule's word and leaves the
next sixteen. -/
theorem Holds.next {block : List Byte} {t : Nat} {W : List Word} (h : Holds block t W) :
    (extendedW W t).1 = Fips180.schedule block t ∧ Holds block (t + 1) (extendedW W t).2 := by
  unfold extendedW
  split
  next ht =>
    refine ⟨?_, h.length, fun i hi _ => h.words i (by omega) (by omega)⟩
    have := h.words t (by omega) (by omega)
    rwa [Nat.mod_eq_of_lt ht] at this
  next ht =>
    have old : W.getD (t % 16) 0 = Fips180.schedule block (t - 16) := by
      rw [← h.words (t - 16) (by omega) (by omega)]
      congr 1; omega
    have new : rotateNLeft (W.getD ((t - 3) % 16) 0 ^^^ W.getD ((t - 8) % 16) 0 ^^^ W.getD ((t - 14) % 16) 0 ^^^
        W.getD (t % 16) 0) 1 = Fips180.schedule block t := by
      rw [Fips180.schedule, if_neg ht, rotateNLeft_eq, old, h.words (t - 3) (by omega) (by omega),
        h.words (t - 8) (by omega) (by omega), h.words (t - 14) (by omega) (by omega)]
    refine ⟨new, by simp [h.length], fun i hi hge => ?_⟩
    dsimp only
    rw [new, List.getD_eq_getElem?_getD, List.getElem?_set, h.length]
    by_cases he : i = t
    · rw [he, if_pos rfl, if_pos (by omega), Option.getD_some]
    · rw [if_neg (by omega), ← List.getD_eq_getElem?_getD]
      exact h.words i (by omega) (by omega)

/-! ## The rounds -/

/-- The registers of `r` as the standard's working variables. -/
def Regs.words (r : Regs) : Words := ⟨r.A, r.B, r.C, r.D, r.E⟩

/-- A call of `P` with the schedule's word is a step of the standard, its results
under the names the next call uses. -/
theorem P_eq_step {w : Nat → Word} {t u : Nat} {v : Words} (hF : F u = F t) (hK : K u = K t) :
    Fips180.step w v t =
      ⟨(P (F u) (K u) v.a v.b v.c v.d v.e (w t)).1, v.a, (P (F u) (K u) v.a v.b v.c v.d v.e (w t)).2, v.c, v.d⟩ := by
  rw [hF, hK]
  simp only [Fips180.step, P, rotateNLeft_eq, F_eq, K_eq]
  congr 1
  ac_rfl

/-- Five rounds bring the registers back to their names. -/
theorem group_steps {block : List Byte} {r : Regs} {i : Nat} (h : Holds block (5 * i) r.W) :
    (group (F (5 * i)) (K (5 * i)) (5 * i) r).words =
        (List.range' (5 * i) 5).foldl (Fips180.step (Fips180.schedule block)) r.words ∧
      Holds block (5 * (i + 1)) (group (F (5 * i)) (K (5 * i)) (5 * i) r).W := by
  obtain ⟨w0, h0⟩ := h.next
  obtain ⟨w1, h1⟩ := h0.next
  obtain ⟨w2, h2⟩ := h1.next
  obtain ⟨w3, h3⟩ := h2.next
  obtain ⟨w4, h4⟩ := h3.next
  -- the bounds 20, 40 and 60 are multiples of five, so a group stays on one side of each
  have same : ∀ u, 5 * i ≤ u → u < 5 * i + 5 → F (5 * i) = F u ∧ K (5 * i) = K u := by
    intro u lo hi
    have b20 : u < 20 ↔ 5 * i < 20 := by omega
    have b40 : u < 40 ↔ 5 * i < 40 := by omega
    have b60 : u < 60 ↔ 5 * i < 60 := by omega
    refine ⟨?_, by simp only [K, b20, b40, b60]⟩
    funext x y z
    simp only [F, b20, b40, b60]
  have step : ∀ u v, 5 * i ≤ u → u < 5 * i + 5 → Fips180.step (Fips180.schedule block) v u = _ :=
    fun u v lo hi => P_eq_step (same u lo hi).1 (same u lo hi).2
  refine ⟨?_, h4⟩
  simp only [List.range'_succ, List.range'_zero, List.foldl_cons, List.foldl_nil]
  rw [step (5 * i) _ (by omega) (by omega), step (5 * i + 1) _ (by omega) (by omega),
    step (5 * i + 1 + 1) _ (by omega) (by omega), step (5 * i + 1 + 1 + 1) _ (by omega) (by omega),
    step (5 * i + 1 + 1 + 1 + 1) _ (by omega) (by omega)]
  simp only [group, Regs.words, ← w0, ← w1, ← w2, ← w3, ← w4]

theorem rounds_succ (r : Regs) (k : Nat) :
    rounds r (k + 1) = group (F (5 * k)) (K (5 * k)) (5 * k) (rounds r k) := by
  simp only [rounds, List.range_succ, List.foldl_append, List.foldl_cons, List.foldl_nil]

/-- The unrolled rounds are the standard's steps, group by group. -/
theorem rounds_eq {block : List Byte} {r : Regs} (h : Holds block 0 r.W) (k : Nat) :
    (rounds r k).words = Fips180.steps (Fips180.schedule block) r.words (5 * k) ∧ Holds block (5 * k) (rounds r k).W := by
  induction k with
  | zero => exact ⟨rfl, h⟩
  | succ k ih =>
    obtain ⟨hw, hW⟩ := group_steps ih.2
    rw [rounds_succ]
    refine ⟨?_, hW⟩
    rw [hw, ih.1, Fips180.steps, Fips180.steps, ← List.foldl_append, List.range_eq_range', List.range_eq_range',
      show 5 * (k + 1) = 5 * k + 5 by omega]
    congr 1
    simpa using (@List.range'_append 0 (5 * k) 5 1)

/-- **One block**: `sha1_process` is the standard's compression function. -/
theorem process_eq_compress (vector : Words) (block : List Byte) :
    sha1Process vector block = Fips180.compress vector block := by
  have h := (rounds_eq (r := ⟨vector.a, vector.b, vector.c, vector.d, vector.e, firstW block⟩) (Holds.first block) 16).1
  simp only [Fips180.compress]
  rw [show vector = Regs.words ⟨vector.a, vector.b, vector.c, vector.d, vector.e, firstW block⟩ from rfl, ← h]
  rfl

end TrustedGrub.Sha1
