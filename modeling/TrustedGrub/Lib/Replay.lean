import Mathlib.Logic.Function.Basic
import Mathlib.Data.List.Nodup

/-!
# Logs of writes

A log is a list of writes to a store. Replayed in order, a cell holds what the last write to
it has put there, or what it held before.
-/

namespace Replay
variable {κ β : Type} [DecidableEq κ]

/-- The store after the writes, in order. -/
def replay (log : List (κ × β)) (store : κ → β) : κ → β := log.foldl (fun s w => Function.update s w.1 w.2) store

variable {log log' : List (κ × β)} {store : κ → β} {k : κ}

@[simp] theorem replay_cons (w : κ × β) : replay (w :: log) store = replay log (Function.update store w.1 w.2) := rfl

theorem replay_append : replay (log ++ log') store = replay log' (replay log store) := List.foldl_append

/-- A cell that is not written keeps what it holds. -/
theorem replay_of_notMem (h : ∀ w ∈ log, w.1 ≠ k) : replay log store k = store k := by
  induction log generalizing store with
  | nil => rfl
  | cons w log ih =>
    rw [replay_cons, ih fun w' hw' => h w' (List.mem_cons_of_mem _ hw')]
    exact Function.update_of_ne (h w (List.mem_cons_self ..)).symm _ _

/-- Writes to different cells are all kept. -/
theorem replay_of_mem (hnodup : (log.map Prod.fst).Nodup) {w : κ × β} (hw : w ∈ log) : replay log store w.1 = w.2 := by
  induction log generalizing store with
  | nil => cases hw
  | cons w' log ih =>
    rw [List.map_cons, List.nodup_cons] at hnodup
    rw [replay_cons]
    obtain rfl | hw := List.mem_cons.1 hw
    · rw [replay_of_notMem, Function.update_self]
      intro w' hw' heq
      exact hnodup.1 (heq ▸ List.mem_map_of_mem hw')
    · exact ih hnodup.2 hw

end Replay
