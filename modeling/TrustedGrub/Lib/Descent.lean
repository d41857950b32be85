import Mathlib.Data.List.Basic
import Mathlib.Tactic.Common

/-!
# Routes through a tree of stored nodes

The nodes of a tree are stored under references, and all leaves are on level 0. A route leads
from a node to a leaf and says what there is on the left and on the right of it.
-/

namespace Descent

/-- Stored nodes: a node has the children `0`, ..., `last`, a leaf has items. -/
structure Nodes (ρ α : Type) where
  last : ρ → Nat
  child : ρ → Nat → ρ
  items : ρ → List α

variable {ρ α : Type}

/-- The items below a node of a level, from left to right. -/
def Nodes.below (t : Nodes ρ α) : Nat → ρ → List α
  | 0, r => t.items r
  | n + 1, r => (List.range (t.last r + 1)).flatMap fun i => below t n (t.child r i)

/-- The items below the first `k` children of a node. -/
def Nodes.belowFirst (t : Nodes ρ α) (n : Nat) (r : ρ) (k : Nat) : List α := (List.range k).flatMap fun i => t.below n (t.child r i)

/-- The route to the leaf `node 0` that takes the child `index (n + 1) r` of a node `r` on
level `n + 1`, and the items on the left and on the right of it. -/
inductive Route (t : Nodes ρ α) (index : Nat → ρ → Nat) (node : Nat → ρ) : Nat → ρ → List α → List α → Prop where
  | leaf {r : ρ} (here : node 0 = r) : Route t index node 0 r [] []
  | inner {n : Nat} {r : ρ} {before after right : List α} (here : node (n + 1) = r) (le : index (n + 1) r ≤ t.last r)
      (split : t.below (n + 1) r = t.belowFirst n r (index (n + 1) r + 1) ++ right)
      (rest : Route t index node n (t.child r (index (n + 1) r)) before after) :
      Route t index node (n + 1) r (t.belowFirst n r (index (n + 1) r) ++ before) (after ++ right)

variable {t : Nodes ρ α} {index index' : Nat → ρ → Nat} {node node' : Nat → ρ} {n k : Nat} {r : ρ} {before after before' after' : List α}

theorem Nodes.belowFirst_succ (t : Nodes ρ α) (n : Nat) (r : ρ) (k : Nat) :
    t.belowFirst n r (k + 1) = t.belowFirst n r k ++ t.below n (t.child r k) := by
  rw [belowFirst, List.range_succ, List.flatMap_append, List.flatMap_singleton]
  rfl

/-- What is on the right of a child. -/
theorem Nodes.below_split (t : Nodes ρ α) (n : Nat) {r : ρ} (hk : k ≤ t.last r) :
    ∃ right, t.below (n + 1) r = t.belowFirst n r (k + 1) ++ right := by
  obtain ⟨m, hm⟩ := Nat.exists_eq_add_of_le hk
  refine ⟨((List.range m).map (k + 1 + ·)).flatMap fun i => t.below n (t.child r i), ?_⟩
  rw [below, hm, Nat.add_right_comm, List.range_add, List.flatMap_append]
  rfl

theorem Route.here (h : Route t index node n r before after) : node n = r := by
  cases h with
  | leaf here => exact here
  | inner here => exact here

/-- A route parts the items. -/
theorem Route.below_eq (h : Route t index node n r before after) : t.below n r = before ++ t.items (node 0) ++ after := by
  induction h with
  | leaf here => rw [here, List.nil_append, List.append_nil, Nodes.below]
  | @inner n r before after right here le split rest ih => rw [split, Nodes.belowFirst_succ, ih]; simp only [List.append_assoc]

/-- There is nothing on the left of the first leaf. -/
theorem Route.first (h : Route t index node n r before after) (hfirst : ∀ j < n, index (j + 1) (node (j + 1)) = 0) : before = [] := by
  induction h with
  | leaf here => rfl
  | @inner n r before after right here le split rest ih =>
    have hzero := hfirst n (Nat.lt_succ_self n)
    rw [here] at hzero
    rw [hzero, ih fun j hj => hfirst j (Nat.lt_succ_of_lt hj)]
    rfl

/-- There is nothing on the right of the last leaf. -/
theorem Route.last (h : Route t index node n r before after) (hlast : ∀ j < n, index (j + 1) (node (j + 1)) = t.last (node (j + 1))) :
    after = [] := by
  induction h with
  | leaf here => rfl
  | @inner n r before after right here le split rest ih =>
    have hchild := hlast n (Nat.lt_succ_self n)
    rw [here] at hchild
    rw [hchild] at split
    rw [ih fun j hj => hlast j (Nat.lt_succ_of_lt hj), List.nil_append]
    exact List.append_right_eq_self.1 split.symm

variable (index' node') in
theorem Route.congr (h : Route t index node n r before after) (hnode : ∀ j ≤ n, node' j = node j)
    (hindex : ∀ j < n, index' (j + 1) (node (j + 1)) = index (j + 1) (node (j + 1))) : Route t index' node' n r before after := by
  induction h with
  | leaf here => exact .leaf ((hnode 0 (Nat.le_refl 0)).trans here)
  | @inner n r before after right here le split rest ih =>
    have hchild := hindex n (Nat.lt_succ_self n)
    rw [here] at hchild
    have hrest := ih (fun j hj => hnode j (Nat.le_succ_of_le hj)) fun j hj => hindex j (Nat.lt_succ_of_lt hj)
    rw [← hchild] at le split hrest ⊢
    exact .inner ((hnode (n + 1) (Nat.le_refl _)).trans here) le split hrest

/-- **The next leaf**: the lowest node that has another child on the right goes on to it, and
from there the route takes first children. -/
theorem Route.next (h : Route t index node n r before after) (hk : k < n)
    (hlast : ∀ j < k, index (j + 1) (node (j + 1)) = t.last (node (j + 1)))
    (hsub : Route t index' node' (k + 1) (node (k + 1)) before' after')
    (hindex : index' (k + 1) (node (k + 1)) = index (k + 1) (node (k + 1)) + 1)
    (hfirst : ∀ j < k, index' (j + 1) (node' (j + 1)) = 0)
    (habove : ∀ j, k < j → j < n → node' (j + 1) = node (j + 1) ∧ index' (j + 1) (node (j + 1)) = index (j + 1) (node (j + 1))) :
    ∃ after'', Route t index' node' n r (before ++ t.items (node 0)) after'' := by
  induction h with
  | leaf here => exact absurd hk (Nat.not_lt_zero k)
  | @inner n r before after right here le split rest ih =>
    obtain rfl | hlt := Nat.eq_or_lt_of_le (Nat.le_of_lt_succ hk)
    · have hbelow := rest.below_eq
      rw [rest.last hlast, List.append_nil] at hbelow
      rw [here] at hsub hindex
      cases hsub with
      | @inner _ _ before' after' right' here' le' split' rest' =>
        obtain rfl := rest'.first hfirst
        refine ⟨after' ++ right', ?_⟩
        have hroute := Route.inner here' le' split' rest'
        rw [hindex, Nodes.belowFirst_succ, hbelow, List.append_nil] at hroute
        rw [List.append_assoc]
        exact hroute
    · obtain ⟨hnode, hsame⟩ := habove n hlt (Nat.lt_succ_self n)
      rw [here] at hnode hsame
      obtain ⟨after'', hrest⟩ := ih hlt fun j hj hjn => habove j hj (Nat.lt_succ_of_lt hjn)
      rw [← hsame] at le split hrest ⊢
      rw [List.append_assoc]
      exact ⟨after'' ++ right, .inner hnode le split hrest⟩

end Descent
