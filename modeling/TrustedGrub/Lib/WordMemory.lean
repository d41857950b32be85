import Mathlib.Data.BitVec
import Mathlib.Tactic.Ring

/-!
# Memory with machine addresses

A memory whose addresses are words and wrap around. A cell belongs to a range if its distance
from the start, which wraps as well, is below the length. `move` copies cell by cell, in the
direction that suits ranges that overlap, and `fill` sets the cells of a range.
-/

namespace WordMemory

variable {w : Nat} {B : Type}

/-- `x` is one of the `n` cells from `a` on. -/
def Within (a : BitVec w) (n : Nat) (x : BitVec w) : Prop := (x - a).toNat < n

instance (a : BitVec w) (n : Nat) (x : BitVec w) : Decidable (Within a n x) := inferInstanceAs (Decidable (_ < _))

def put (mem : BitVec w → B) (a : BitVec w) (b : B) : BitVec w → B := fun x => if x = a then b else mem x

/-- The cells are copied from the first one up. -/
def copyUp : Nat → BitVec w → BitVec w → (BitVec w → B) → BitVec w → B
  | 0, _, _, mem => mem
  | n + 1, dst, src, mem => copyUp n (dst + 1) (src + 1) (put mem dst (mem src))

/-- The cells are copied from the last one down. -/
def copyDown : Nat → BitVec w → BitVec w → (BitVec w → B) → BitVec w → B
  | 0, _, _, mem => mem
  | n + 1, dst, src, mem => copyDown n dst src (put mem (dst + .ofNat w n) (mem (src + .ofNat w n)))

def move (n : Nat) (dst src : BitVec w) (mem : BitVec w → B) : BitVec w → B :=
  if dst < src then copyUp n dst src mem else copyDown n dst src mem

def fill : Nat → BitVec w → B → (BitVec w → B) → BitVec w → B
  | 0, _, _, mem => mem
  | n + 1, a, b, mem => fill n (a + 1) b (put mem a b)

/-! ## Ranges -/

variable {mem : BitVec w → B} {a x y dst src : BitVec w} {b : B} {n k : Nat}

@[simp] theorem put_self : put mem a b a = b := if_pos rfl

theorem put_of_ne (h : x ≠ a) : put mem a b x = mem x := if_neg h

theorem not_within_zero : ¬ Within a 0 x := Nat.not_lt_zero _

theorem Within.mono (h : Within a n x) (hle : n ≤ k) : Within a k x := Nat.lt_of_lt_of_le h hle

theorem within_offset (h : k < n) (hn : n ≤ 2 ^ w) : Within a n (a + .ofNat w k) := by
  unfold Within
  rw [add_sub_cancel_left, BitVec.toNat_ofNat, Nat.mod_eq_of_lt (by omega)]
  exact h

/-- A cell is known by its distance. -/
theorem eq_offset (a x : BitVec w) : x = a + .ofNat w (x - a).toNat := by
  rw [BitVec.ofNat_toNat, BitVec.setWidth_eq, add_sub_cancel]

theorem Within.iff_offset (hn : n ≤ 2 ^ w) : Within a n x ↔ ∃ k < n, x = a + .ofNat w k := by
  constructor
  · intro h
    exact ⟨_, h, eq_offset a x⟩
  · rintro ⟨k, hk, rfl⟩
    exact within_offset hk hn

/-- Where a range does not reach the end of the address space, it is an interval. -/
theorem within_iff (h : a.toNat + n ≤ 2 ^ w) : Within a n x ↔ a.toNat ≤ x.toNat ∧ x.toNat < a.toNat + n := by
  have hx := x.isLt
  unfold Within
  rw [BitVec.toNat_sub]
  by_cases hle : a.toNat ≤ x.toNat
  · have hdiff : 2 ^ w - a.toNat + x.toNat = 2 ^ w + (x.toNat - a.toNat) := by omega
    rw [hdiff, Nat.add_mod_left, Nat.mod_eq_of_lt (by omega)]
    omega
  · rw [Nat.mod_eq_of_lt (by omega)]
    omega

theorem within_succ (hn : n < 2 ^ w) : Within a (n + 1) x ↔ x = a ∨ Within (a + 1) n x := by
  rw [Within.iff_offset hn, Within.iff_offset (Nat.le_of_lt hn)]
  have hnext (k : Nat) : a + 1 + .ofNat w k = a + .ofNat w (k + 1) := by
    rw [BitVec.ofNat_add, BitVec.add_assoc]
    exact congrArg (a + ·) (BitVec.add_comm _ _)
  constructor
  · rintro ⟨k, hk, rfl⟩
    cases k with
    | zero => exact .inl (BitVec.add_zero a)
    | succ k => exact .inr ⟨k, by omega, (hnext k).symm⟩
  · rintro (rfl | ⟨k, hk, rfl⟩)
    · exact ⟨0, Nat.succ_pos n, (BitVec.add_zero x).symm⟩
    · exact ⟨k + 1, by omega, hnext k⟩

theorem not_within_next (hn : n < 2 ^ w) : ¬ Within (a + 1) n a := by
  unfold Within
  have hback : a - (a + 1) = -1#w := sub_add_cancel_left a 1
  rw [hback, BitVec.neg_one_eq_allOnes, BitVec.toNat_allOnes]
  omega

/-! ## Copies -/

/-- What a copy leaves in memory: the cells as they were before. -/
def moved (n : Nat) (dst src : BitVec w) (mem : BitVec w → B) : BitVec w → B :=
  fun x => if Within dst n x then mem (src + (x - dst)) else mem x

theorem moved_within (h : Within dst n x) : moved n dst src mem x = mem (src + (x - dst)) := if_pos h

theorem moved_outside (h : ¬ Within dst n x) : moved n dst src mem x = mem x := if_neg h

/-- Upwards, no cell is overwritten before it is read if the target is not behind the start. -/
theorem copyUp_eq : ∀ {n : Nat} {dst src : BitVec w} {mem : BitVec w → B}, n ≤ 2 ^ w → (dst = src ∨ n ≤ (dst - src).toNat) →
    copyUp n dst src mem = moved n dst src mem := by
  intro n
  induction n with
  | zero =>
    intro dst src mem _ _
    funext x
    exact (moved_outside not_within_zero).symm
  | succ n ih =>
    intro dst src mem hn hapart
    have hsame : dst + 1 - (src + 1) = dst - src := add_sub_add_right_eq_sub dst src 1
    have hrest : dst + 1 = src + 1 ∨ n ≤ (dst + 1 - (src + 1)).toNat := by
      rw [hsame]
      rcases hapart with rfl | h
      · exact .inl rfl
      · exact .inr (by omega)
    funext x
    rw [copyUp, ih (by omega) hrest]
    by_cases hx : Within (dst + 1) n x
    · have hin : Within dst (n + 1) x := (within_succ (by omega)).2 (.inr hx)
      have hbehind : src + 1 + (x - (dst + 1)) = src + (x - dst) := by ring
      have hread : src + (x - dst) ≠ dst := by
        intro heq
        have hdist : x - dst = dst - src := eq_sub_of_add_eq' heq
        rcases hapart with rfl | h
        · rw [sub_self, sub_eq_zero] at hdist
          exact not_within_next (by omega) (hdist ▸ hx)
        · rw [← hdist] at h
          exact absurd hin (Nat.not_lt.2 h)
      rw [moved_within hx, moved_within hin, hbehind, put_of_ne hread]
    · rw [moved_outside hx]
      by_cases hfirst : x = dst
      · subst hfirst
        rw [put_self, moved_within (by simp [Within]), sub_self, add_zero]
      · have hout : ¬ Within dst (n + 1) x := fun h => ((within_succ (by omega)).1 h).elim hfirst hx
        rw [put_of_ne hfirst, moved_outside hout]

theorem within_last (hn : n < 2 ^ w) : Within a (n + 1) x ↔ x = a + .ofNat w n ∨ Within a n x := by
  constructor
  · intro h
    rcases Nat.lt_or_eq_of_le (Nat.le_of_lt_succ h) with hlt | heq
    · exact .inr hlt
    · exact .inl (heq ▸ eq_offset a x)
  · rintro (rfl | h)
    · exact within_offset (Nat.lt_succ_self n) hn
    · exact h.mono (Nat.le_succ n)

/-- Downwards, no cell is overwritten before it is read if the target is not before the start. -/
theorem copyDown_eq : ∀ {n : Nat} {mem : BitVec w → B}, n ≤ 2 ^ w → (dst = src ∨ n ≤ (src - dst).toNat) →
    copyDown n dst src mem = moved n dst src mem := by
  intro n
  induction n with
  | zero =>
    intro mem _ _
    funext x
    exact (moved_outside not_within_zero).symm
  | succ n ih =>
    intro mem hn hapart
    have hlast : (BitVec.ofNat w n).toNat = n := by rw [BitVec.toNat_ofNat, Nat.mod_eq_of_lt (by omega)]
    funext x
    rw [copyDown, ih (by omega) (hapart.imp_right Nat.le_of_succ_le)]
    by_cases hx : Within dst n x
    · have hread : src + (x - dst) ≠ dst + .ofNat w n := by
        intro heq
        rcases hapart with rfl | h
        · have hdist : x - dst = .ofNat w n := add_left_cancel heq
          unfold Within at hx
          rw [hdist, hlast] at hx
          exact Nat.lt_irrefl n hx
        · have hdist : x - dst = .ofNat w n - (src - dst) := by rw [eq_sub_of_add_eq' heq]; ring
          have hsub : (x - dst).toNat = 2 ^ w - (src - dst).toNat + n := by
            rw [hdist, BitVec.toNat_sub, hlast, Nat.mod_eq_of_lt (by omega)]
          unfold Within at hx
          omega
      rw [moved_within hx, moved_within (hx.mono (Nat.le_succ n)), put_of_ne hread]
    · rw [moved_outside hx]
      by_cases hend : x = dst + .ofNat w n
      · subst hend
        rw [put_self, moved_within (within_offset (Nat.lt_succ_self n) hn), add_sub_cancel_left]
      · have hout : ¬ Within dst (n + 1) x := fun h => ((within_last (by omega)).1 h).elim hend hx
        rw [put_of_ne hend, moved_outside hout]

/-- The cells arrive as they were before if neither range, laid behind the other, reaches around. -/
theorem move_eq (hdst : dst.toNat + n ≤ 2 ^ w) (hsrc : src.toNat + n ≤ 2 ^ w) : move n dst src mem = moved n dst src mem := by
  unfold move
  split
  next hlt =>
    have hlt : dst.toNat < src.toNat := BitVec.lt_def.1 hlt
    refine copyUp_eq (by omega) (.inr ?_)
    rw [BitVec.toNat_sub, Nat.mod_eq_of_lt (by omega)]
    omega
  next hge =>
    have hge : src.toNat ≤ dst.toNat := Nat.le_of_not_lt fun h => hge (BitVec.lt_def.2 h)
    apply copyDown_eq (by omega)
    by_cases heq : dst = src
    · exact .inl heq
    · have hne : dst.toNat ≠ src.toNat := fun h => heq (BitVec.eq_of_toNat_eq h)
      refine .inr ?_
      rw [BitVec.toNat_sub, Nat.mod_eq_of_lt (by omega)]
      omega

end WordMemory
