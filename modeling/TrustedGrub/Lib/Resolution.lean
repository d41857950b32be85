import Mathlib.Logic.Relation
import Mathlib.Tactic.Common

/-!
# What a path names

A tree of nodes with directories and symbolic links, and a walker that takes one name of a
path, or follows one link, at a step. A relative link is looked up from the directory that
it was found in. The steps are bounded by the number of links and by the length of the text
that a link makes of the path, so a walk comes to an end, and to one end only. A character
in the text of a link may end the path.
-/

namespace Resolution
variable {ι χ : Type}

/-- A node of the tree. -/
inductive Node (ι χ : Type) where
  | file (size : Nat)
  | dir (entries : List (List χ × ι))
  | link (target : List χ)
  | other

/-- A tree, the character between names, those that end a path, and the limits of a walk. -/
structure System (ι χ : Type) where
  node : ι → Node ι χ
  root : ι
  slash : χ
  ends : χ → Bool
  maxLinks : Nat
  maxLength : Nat

/-- A walker: the node it is at, the directory it has come from, the path that is left, and
the links it has followed. -/
structure Walker (ι χ : Type) where
  ino : ι
  up : ι
  path : List χ
  links : Nat

variable [DecidableEq χ] {sys : System ι χ} {w w' w'' : Walker ι χ}

namespace System

/-- The first name of a path, without the characters before it. -/
def name (sys : System ι χ) (path : List χ) : List χ := (path.dropWhile (· = sys.slash)).takeWhile (· ≠ sys.slash)

/-- What comes behind the first name. -/
def rest (sys : System ι χ) (path : List χ) : List χ := (path.dropWhile (· = sys.slash)).dropWhile (· ≠ sys.slash)

/-- Where the text of a link begins. -/
def origin (sys : System ι χ) (up : ι) (target : List χ) : ι := if target.head? = some sys.slash then sys.root else up

/-- The path behind a link. -/
def relinked (sys : System ι χ) (target path : List χ) : List χ := (target ++ path).takeWhile fun c => !sys.ends c

/-- One step. -/
def step (sys : System ι χ) (w : Walker ι χ) : Option (Walker ι χ) :=
  match sys.node w.ino with
  | .dir entries =>
    if w.path = [] then none
    else (entries.lookup (sys.name w.path)).map fun ino => { w with ino := ino, up := w.ino, path := sys.rest w.path }
  | .link target =>
    if w.links < sys.maxLinks ∧ target.length + w.path.length ≤ sys.maxLength then
      some { ino := sys.origin w.up target, up := sys.origin w.up target, path := sys.relinked target w.path, links := w.links + 1 }
    else none
  | .file _ | .other => none

/-- A walk. -/
def Reaches (sys : System ι χ) : Walker ι χ → Walker ι χ → Prop := Relation.ReflTransGen fun w w' => sys.step w = some w'

/-- A walk to its end. -/
def Comes (sys : System ι χ) (w w' : Walker ι χ) : Prop := sys.Reaches w w' ∧ sys.step w' = none

/-- The walker at the root. -/
def start (sys : System ι χ) (path : List χ) : Walker ι χ := ⟨sys.root, sys.root, path, 0⟩

/-- The path names a file of this size. -/
def NamesFile (sys : System ι χ) (path : List χ) (ino : ι) (size : Nat) : Prop :=
  sys.node ino = .file size ∧ ∃ w, sys.Reaches (sys.start path) w ∧ w.ino = ino ∧ w.path = []

/-- What is left for a walker to do. -/
def measure (sys : System ι χ) (w : Walker ι χ) : Nat := (sys.maxLinks - w.links) * (sys.maxLength + 1) + w.path.length

theorem rest_length_lt {path : List χ} (h : path ≠ []) : (sys.rest path).length < path.length := by
  obtain ⟨c, tail, rfl⟩ := List.exists_cons_of_ne_nil h
  unfold rest
  by_cases hslash : c = sys.slash
  · have hskip := (List.dropWhile_suffix (fun d => decide (d = sys.slash)) (l := tail)).length_le
    have hrest := (List.dropWhile_suffix (fun d => decide (d ≠ sys.slash)) (l := tail.dropWhile (· = sys.slash))).length_le
    rw [List.dropWhile_cons_of_pos (by simpa using hslash)]
    exact Nat.lt_succ_of_le (Nat.le_trans hrest hskip)
  · have hrest := (List.dropWhile_suffix (fun d => decide (d ≠ sys.slash)) (l := tail)).length_le
    rw [List.dropWhile_cons_of_neg (by simpa using hslash), List.dropWhile_cons_of_pos (by simpa using hslash)]
    exact Nat.lt_succ_of_le hrest

theorem step_measure (h : sys.step w = some w') : sys.measure w' < sys.measure w := by
  unfold step at h
  split at h
  next entries _ =>
    split_ifs at h with hpath
    obtain ⟨ino, -, rfl⟩ := Option.map_eq_some_iff.1 h
    exact Nat.add_lt_add_left (rest_length_lt hpath) _
  next target _ =>
    split_ifs at h with hlimits
    obtain rfl := Option.some.inj h
    obtain ⟨hlinks, hlength⟩ := hlimits
    have hstep : sys.maxLinks - w.links = sys.maxLinks - (w.links + 1) + 1 := by omega
    have hcut : (sys.relinked target w.path).length ≤ target.length + w.path.length := by
      rw [← List.length_append]
      exact (List.takeWhile_prefix _).length_le
    simp only [measure, hstep, Nat.succ_mul]
    omega
  · cases h
  · cases h

theorem Comes.of_step (h : sys.step w = some w') : sys.Comes w w'' ↔ sys.Comes w' w'' := by
  constructor
  · rintro ⟨hreaches, hend⟩
    obtain rfl | ⟨v, hv, hrest⟩ := hreaches.cases_head
    · rw [h] at hend
      cases hend
    · cases h.symm.trans hv
      exact ⟨hrest, hend⟩
  · rintro ⟨hreaches, hend⟩
    exact ⟨.head h hreaches, hend⟩

theorem comes_self (h : sys.step w = none) : sys.Comes w w' ↔ w' = w := by
  constructor
  · rintro ⟨hreaches, -⟩
    obtain rfl | ⟨v, hv, -⟩ := hreaches.cases_head
    · rfl
    · rw [h] at hv
      cases hv
  · rintro rfl
    exact ⟨.refl, h⟩

/-- What holds of a walker that can go no further, and of one whenever it holds of the next,
holds of every walker. -/
theorem walk_induct {P : Walker ι χ → Prop} (hend : ∀ w, sys.step w = none → P w) (hstep : ∀ w w', sys.step w = some w' → P w' → P w)
    (w : Walker ι χ) : P w := by
  induction hn : sys.measure w using Nat.strongRecOn generalizing w with
  | ind n ih =>
    cases hnext : sys.step w with
    | none => exact hend w hnext
    | some w' => exact hstep w w' hnext (ih _ (hn ▸ step_measure hnext) w' rfl)

/-- A walk comes to an end, and to one only. -/
theorem comes_unique (w : Walker ι χ) : ∃! w', sys.Comes w w' := by
  apply @walk_induct _ _ _ sys fun w => ∃! w', sys.Comes w w'
  · intro w hend
    refine ⟨w, (comes_self hend).2 rfl, fun w' h => (comes_self hend).1 h⟩
  · rintro w v hnext ⟨w', hcomes, hunique⟩
    exact ⟨w', (Comes.of_step hnext).2 hcomes, fun w'' h => hunique w'' ((Comes.of_step hnext).1 h)⟩

/-- A walk ends at a file. -/
theorem step_file {size : Nat} (h : sys.node w.ino = .file size) : sys.step w = none := by
  unfold step
  rw [h]

theorem namesFile_iff {path : List χ} {ino : ι} {size : Nat} (h : sys.Comes (sys.start path) w) :
    sys.NamesFile path ino size ↔ w.ino = ino ∧ w.path = [] ∧ sys.node ino = .file size := by
  constructor
  · rintro ⟨hnode, w', hreaches, rfl, hpath⟩
    obtain rfl := (comes_unique (sys.start path)).unique h ⟨hreaches, step_file hnode⟩
    exact ⟨rfl, hpath, hnode⟩
  · rintro ⟨rfl, hpath, hnode⟩
    exact ⟨hnode, w, h.1, rfl, hpath⟩

/-- A path names one file only. -/
theorem NamesFile.unique {path : List χ} {ino ino' : ι} {size size' : Nat} (h : sys.NamesFile path ino size)
    (h' : sys.NamesFile path ino' size') : ino = ino' := by
  obtain ⟨hnode, w, hreaches, rfl, -⟩ := h
  exact ((namesFile_iff ⟨hreaches, step_file hnode⟩).1 h').1

end System

end Resolution
