import Mathlib.Order.WellFounded
import Mathlib.Logic.Relation
import Mathlib.Tactic.Common

/-!
# Runs that come to an end

A program is called again and again until it refuses. At each call it may be handed
something that it does not choose, so that a step is a relation. `Halts` says that no
run goes on for ever, `Complete` is a run to its end.
-/

namespace Runs

variable {S W : Type}

/-- No run from `s` goes on for ever. -/
def Halts (R : S → S → Prop) (s : S) : Prop := ¬ ∃ run : Nat → S, run 0 = s ∧ ∀ n, R (run n) (run (n + 1))

variable {R : S → S → Prop} {s : S}

theorem halts_iff_acc : Halts R s ↔ Acc (fun a b => R b a) s := by
  rw [acc_iff_isEmpty_descending_chain]
  constructor
  · intro h
    exact ⟨fun ⟨run, hstart, hsteps⟩ => h ⟨run, hstart, hsteps⟩⟩
  · rintro h ⟨run, hstart, hsteps⟩
    exact h.false ⟨run, hstart, hsteps⟩

theorem halts_of_steps (h : ∀ s', R s s' → Halts R s') : Halts R s := by
  rw [halts_iff_acc]
  exact ⟨s, fun s' hstep => halts_iff_acc.1 (h s' hstep)⟩

theorem Halts.step {s' : S} (h : Halts R s) (hstep : R s s') : Halts R s' := by
  rw [halts_iff_acc] at h ⊢
  exact h.inv hstep

theorem Halts.steps {s' : S} (h : Halts R s) (hsteps : Relation.ReflTransGen R s s') : Halts R s' := by
  induction hsteps with
  | refl => exact h
  | tail _ hstep ih => exact ih.step hstep

/-- What holds of a state whenever it holds of all later ones holds of every state from
which the runs end. -/
theorem Halts.induct (h : Halts R s) (P : S → Prop) (ih : ∀ s, Halts R s → (∀ s', Relation.TransGen R s s' → P s') → P s) :
    P s := by
  have hacc : Acc (Relation.TransGen fun a b => R b a) s := (halts_iff_acc.1 h).transGen
  induction hacc with
  | intro s _ hind =>
    refine ih s h fun s' hsteps => ?_
    have hswap : Relation.TransGen (fun a b => R b a) s' s := Relation.transGen_swap.2 hsteps
    exact hind s' hswap (h.steps hsteps.to_reflTransGen)

/-- What comes back again and again does not end. -/
theorem not_halts_of_recurs {P : S → Prop} (h : ∀ s, P s → ∃ s', Relation.TransGen R s s' ∧ P s') (hs : P s) : ¬ Halts R s := by
  intro hhalts
  revert hs
  refine hhalts.induct (fun s => ¬ P s) fun s _ ih hs => ?_
  obtain ⟨s', hsteps, hs'⟩ := h s hs
  exact ih s' hsteps hs'

/-- A run to its end: the states that the calls have returned. -/
inductive Complete (call : W → S → Option S) : S → List S → Prop where
  | stop {s : S} (w : W) (h : call w s = none) : Complete call s []
  | next {s s' : S} {visited : List S} (w : W) (h : call w s = some s') (rest : Complete call s' visited) :
      Complete call s (s' :: visited)

/-- One call, whatever it is handed. -/
def Step (call : W → S → Option S) (s s' : S) : Prop := ∃ w, call w s = some s'

/-- Where the runs end, there is one. -/
theorem Halts.complete [Inhabited W] {call : W → S → Option S} (h : Halts (Step call) s) : ∃ visited, Complete call s visited := by
  refine h.induct (fun s => ∃ visited, Complete call s visited) fun s _ ih => ?_
  cases hcall : call default s with
  | none => exact ⟨[], .stop default hcall⟩
  | some s' =>
    obtain ⟨visited, hrest⟩ := ih s' (.single ⟨default, hcall⟩)
    exact ⟨s' :: visited, .next default hcall hrest⟩

end Runs
