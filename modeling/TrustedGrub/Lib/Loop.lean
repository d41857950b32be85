/-!
# Loops with a body that says how they go on

A body takes the locals and the state of a loop and either goes on with others or leaves
the loop with a result. `loop` runs it for as long as there is fuel. What a body keeps, the
loop keeps.

A body may have loops of its own. It is handed fuel for them, and `run` is the loop of such
bodies: it ends where every pass that it comes to ends and makes a measure smaller.
-/

namespace Loop
variable {τ γ ρ : Type}

/-- How a pass through the body of a loop ends. -/
inductive Flow (τ γ ρ : Type) where
  | next (locals : τ) (state : γ)
  | done (result : ρ) (state : γ)

def Flow.state : Flow τ γ ρ → γ
  | .next _ g => g
  | .done _ g => g

def loop (body : τ → γ → Flow τ γ ρ) : Nat → τ → γ → Option (ρ × γ)
  | 0, _, _ => none
  | fuel + 1, t, g =>
    match body t g with
    | .next t g => loop body fuel t g
    | .done r g => some (r, g)

theorem loop_keeps {body : τ → γ → Flow τ γ ρ} {P : γ → Prop} (hbody : ∀ t g, P g → P (body t g).state) {fuel : Nat} {t : τ} {g g' : γ}
    {r : ρ} (h : loop body fuel t g = some (r, g')) (hg : P g) : P g' := by
  induction fuel generalizing t g with
  | zero => cases h
  | succ fuel ih =>
    have hone := hbody t g hg
    simp only [loop] at h
    generalize body t g = flow at h hone
    cases flow with
    | next t₁ g₁ => exact ih h hone
    | done r₁ g₁ =>
      obtain ⟨-, rfl⟩ := Prod.mk.inj (Option.some.inj h)
      exact hone

/-! ## Bodies with loops of their own -/

/-- `y` is what `x` is, if `x` comes to something at all. -/
def Before {α : Type} (x y : Option α) : Prop := ∀ a, x = some a → y = some a

theorem Before.refl {α : Type} (x : Option α) : Before x x := fun _ h => h

theorem Before.bind {α β : Type} {x y : Option α} (h : Before x y) (k : α → Option β) : Before (x.bind k) (y.bind k) := by
  intro b hb
  obtain ⟨a, ha, hka⟩ := Option.bind_eq_some_iff.1 hb
  rw [h a ha]
  exact hka

theorem Before.ite {α : Type} {c : Prop} [Decidable c] {x x' y y' : Option α} (h : c → Before x y) (h' : ¬ c → Before x' y') :
    Before (if c then x else x') (if c then y else y') := by
  split
  next hc => exact h hc
  next hc => exact h' hc

theorem Before.guard {α : Type} {c : Prop} [Decidable c] {x x' y' : Option α} (h : Before x' y') :
    Before (if c then x else x') (if c then x else y') :=
  Before.ite (fun _ => Before.refl x) fun _ => h

/-- A body that is handed fuel for the loops in it. Without enough it comes to nothing. -/
abbrev Body (τ γ ρ : Type) := Nat → τ → γ → Option (Flow τ γ ρ)

def run (body : Body τ γ ρ) : Nat → τ → γ → Option (ρ × γ)
  | 0, _, _ => none
  | fuel + 1, t, g =>
    match body fuel t g with
    | none => none
    | some (.next t g) => run body fuel t g
    | some (.done r g) => some (r, g)

/-- More fuel does not change what a body comes to. -/
def Steady (body : Body τ γ ρ) : Prop := ∀ {fuel fuel' : Nat}, fuel ≤ fuel' → ∀ t g, Before (body fuel t g) (body fuel' t g)

/-- The passes a run comes to. -/
inductive Passed (body : Body τ γ ρ) (t₀ : τ) (g₀ : γ) : τ → γ → Prop where
  | first : Passed body t₀ g₀ t₀ g₀
  | next {t t' : τ} {g g' : γ} (fuel : Nat) (before : Passed body t₀ g₀ t g) (pass : body fuel t g = some (.next t' g')) :
      Passed body t₀ g₀ t' g'

/-- The loop comes to an end with this. -/
def Yields (body : Body τ γ ρ) (t : τ) (g : γ) (r : ρ) (g' : γ) : Prop := ∃ fuel, run body fuel t g = some (r, g')

/-- The loop comes to an end. -/
def Ends (body : Body τ γ ρ) (t : τ) (g : γ) : Prop := ∃ fuel result, run body fuel t g = some result

variable {body : Body τ γ ρ} {t t₀ : τ} {g g₀ : γ}

theorem run_steady (h : Steady body) {fuel fuel' : Nat} (hle : fuel ≤ fuel') (t : τ) (g : γ) :
    Before (run body fuel t g) (run body fuel' t g) := by
  intro result hr
  induction fuel generalizing fuel' t g with
  | zero => cases hr
  | succ fuel ih =>
    obtain ⟨fuel', rfl⟩ := Nat.exists_eq_add_of_le' (Nat.le_trans (Nat.le_add_left 1 fuel) hle)
    simp only [run] at hr ⊢
    cases hflow : body fuel t g with
    | none => simp only [hflow, reduceCtorEq] at hr
    | some flow =>
      rw [h (Nat.succ_le_succ_iff.1 hle) t g flow hflow]
      simp only [hflow] at hr
      cases flow with
      | next t' g' => exact ih (Nat.succ_le_succ_iff.1 hle) t' g' hr
      | done r g' => exact hr

theorem Yields.done {fuel : Nat} {r : ρ} {g' : γ} (hpass : body fuel t g = some (.done r g')) : Yields body t g r g' := by
  refine ⟨fuel + 1, ?_⟩
  simp only [run, hpass]

theorem Yields.next (h : Steady body) {fuel : Nat} {t' : τ} {g' g'' : γ} {r : ρ} (hpass : body fuel t g = some (.next t' g'))
    (hrest : Yields body t' g' r g'') : Yields body t g r g'' := by
  obtain ⟨fuel', hr⟩ := hrest
  refine ⟨max fuel fuel' + 1, ?_⟩
  simp only [run, h (Nat.le_max_left fuel fuel') t g _ hpass]
  exact run_steady h (Nat.le_max_right fuel fuel') t' g' _ hr

/-- A loop comes to one end only. -/
theorem Yields.unique (h : Steady body) {r r' : ρ} {g' g'' : γ} (hy : Yields body t g r g') (hy' : Yields body t g r' g'') :
    r = r' ∧ g' = g'' := by
  obtain ⟨fuel, hr⟩ := hy
  obtain ⟨fuel', hr'⟩ := hy'
  have hboth := run_steady h (Nat.le_max_left fuel fuel') t g _ hr
  rw [run_steady h (Nat.le_max_right fuel fuel') t g _ hr'] at hboth
  exact Prod.mk.inj (Option.some.inj hboth.symm)

/-- A loop that comes to an end goes through each of its passes. -/
theorem Yields.rest (h : Steady body) {fuel : Nat} {t' : τ} {g' g'' : γ} {r : ρ} (hpass : body fuel t g = some (.next t' g'))
    (hy : Yields body t g r g'') : Yields body t' g' r g'' := by
  obtain ⟨fuel', hr⟩ := hy
  have hr := run_steady h (Nat.le_max_right (fuel + 1) fuel') t g _ hr
  obtain ⟨n, hn⟩ := Nat.exists_eq_add_of_le' (Nat.le_trans (Nat.le_add_left 1 fuel) (Nat.le_max_left (fuel + 1) fuel'))
  rw [hn, run, h (by omega) t g _ hpass] at hr
  exact ⟨n, hr⟩

/-- A run comes to what its last pass promises, where every pass finds what the one before it has promised. -/
theorem run_rule {I : τ → γ → Prop} {Q : ρ → γ → Prop}
    (hnext : ∀ {fuel : Nat} {t t' : τ} {g g' : γ}, body fuel t g = some (.next t' g') → I t g → I t' g')
    (hdone : ∀ {fuel : Nat} {t : τ} {g g' : γ} {r : ρ}, body fuel t g = some (.done r g') → I t g → Q r g') {fuel : Nat} {r : ρ} {g' : γ}
    (hr : run body fuel t g = some (r, g')) (hg : I t g) : Q r g' := by
  induction fuel generalizing t g with
  | zero => cases hr
  | succ fuel ih =>
    simp only [run] at hr
    cases hflow : body fuel t g with
    | none => simp only [hflow, reduceCtorEq] at hr
    | some flow =>
      simp only [hflow] at hr
      cases flow with
      | next t' g'' => exact ih hr (hnext hflow hg)
      | done r' g'' =>
        cases hr
        exact hdone hflow hg

/-- What every pass keeps, the run keeps. -/
theorem run_keeps {P : γ → Prop} (hbody : ∀ {fuel : Nat} {t : τ} {g : γ} {flow : Flow τ γ ρ}, body fuel t g = some flow → P g →
    P flow.state)
    {fuel : Nat} {r : ρ} {g' : γ} (hr : run body fuel t g = some (r, g')) (hg : P g) : P g' :=
  run_rule (I := fun _ g => P g) (Q := fun _ g => P g) hbody hbody hr hg

/-- What no pass changes, the run does not change. -/
theorem run_same {α : Type} {f : γ → α} (hbody : ∀ {fuel : Nat} {t : τ} {g : γ} {flow : Flow τ γ ρ}, body fuel t g = some flow →
    f flow.state = f g)
    {fuel : Nat} {r : ρ} {g' : γ} (hr : run body fuel t g = some (r, g')) : f g' = f g :=
  run_keeps (P := fun g' => f g' = f g) (fun hflow hg => (hbody hflow).trans hg) hr rfl

/-- What a run comes to is what its last pass comes to. -/
theorem run_last {fuel : Nat} {r : ρ} {g' : γ} (hr : run body fuel t g = some (r, g')) (hreached : Passed body t₀ g₀ t g) :
    ∃ fuel t' g'', Passed body t₀ g₀ t' g'' ∧ body fuel t' g'' = some (.done r g') := by
  refine run_rule (I := Passed body t₀ g₀) (Q := fun r g' => ∃ fuel t' g'', Passed body t₀ g₀ t' g'' ∧ body fuel t' g'' = some (.done r g'))
    ?_ ?_ hr hreached
  · intro fuel t t' g g' hflow hreached
    exact hreached.next fuel hflow
  · intro fuel t g g' r hflow hreached
    exact ⟨fuel, t, g, hreached, hflow⟩

/-- A pass that ends goes on to one from which the loop ends, or leaves it. -/
theorem ends_of_pass (h : Steady body) {fuel : Nat} {flow : Flow τ γ ρ} (hpass : body fuel t g = some flow)
    (hrest : ∀ t' g', flow = .next t' g' → Ends body t' g') : Ends body t g := by
  cases flow with
  | done r g' =>
    obtain ⟨fuel', hr⟩ := Yields.done hpass
    exact ⟨fuel', (r, g'), hr⟩
  | next t' g' =>
    obtain ⟨fuel', ⟨r, g''⟩, hresult⟩ := hrest t' g' rfl
    obtain ⟨fuel'', hr⟩ := Yields.next h hpass ⟨fuel', hresult⟩
    exact ⟨fuel'', (r, g''), hr⟩

theorem Ends.pass (h : Ends body t g) : ∃ fuel flow, body fuel t g = some flow := by
  obtain ⟨fuel, result, hr⟩ := h
  cases fuel with
  | zero => cases hr
  | succ fuel =>
    simp only [run] at hr
    cases hflow : body fuel t g with
    | none => simp only [hflow, reduceCtorEq] at hr
    | some flow => exact ⟨fuel, flow, hflow⟩

theorem Ends.next (hsteady : Steady body) (h : Ends body t g) {fuel : Nat} {t' : τ} {g' : γ} (hpass : body fuel t g = some (.next t' g')) :
    Ends body t' g' := by
  obtain ⟨fuel', ⟨r, g''⟩, hr⟩ := h
  obtain ⟨n, hn⟩ := Yields.rest hsteady hpass ⟨fuel', hr⟩
  exact ⟨n, (r, g''), hn⟩

/-- A loop that ends ends from all of its passes. -/
theorem Ends.passed (hsteady : Steady body) (h : Ends body t₀ g₀) (hpassed : Passed body t₀ g₀ t g) : Ends body t g := by
  induction hpassed with
  | first => exact h
  | next fuel _ hpass ih => exact ih.next hsteady hpass

/-- A loop that comes from each pass to another one of the same kind does not end. -/
theorem run_endless {P : τ → γ → Prop} (hpass : ∀ fuel t g, P t g → ∀ flow, body fuel t g = some flow → ∃ t' g',
    flow = .next t' g' ∧ P t' g')
    (hp : P t g) (fuel : Nat) : run body fuel t g = none := by
  induction fuel generalizing t g with
  | zero => rfl
  | succ fuel ih =>
    simp only [run]
    cases hflow : body fuel t g with
    | none => rfl
    | some flow =>
      obtain ⟨t', g', rfl, hp'⟩ := hpass fuel t g hp flow hflow
      exact ih hp'

/-! ## Loops that can get lost -/

/-- The loop comes to an end that is as `Q` says, unless it gets lost on the way. -/
inductive Leads (body : Body τ γ ρ) (lost : γ → Prop) (Q : ρ → γ → Prop) : τ → γ → Prop where
  | lost {t : τ} {g : γ} (h : lost g) : Leads body lost Q t g
  | done {t : τ} {g g' : γ} {r : ρ} (pass : ∀ fuel, body fuel t g = some (.done r g')) (h : Q r g' ∨ lost g') : Leads body lost Q t g
  | next {t t' : τ} {g g' : γ} (pass : ∀ fuel, body fuel t g = some (.next t' g')) (rest : Leads body lost Q t' g') : Leads body lost Q t g

variable {lost : γ → Prop} {Q : ρ → γ → Prop}

theorem Leads.imp {Q' : ρ → γ → Prop} (himp : ∀ r g, Q r g → Q' r g) (h : Leads body lost Q t g) : Leads body lost Q' t g := by
  induction h with
  | lost h => exact .lost h
  | done pass h => exact .done pass (h.imp_left (himp _ _))
  | next pass _ ih => exact .next pass ih

theorem Leads.of_lost {flow : Flow τ γ ρ} (pass : ∀ fuel, body fuel t g = some flow) (h : lost flow.state) : Leads body lost Q t g := by
  cases flow with
  | next t' g' => exact .next pass (.lost h)
  | done r g' => exact .done pass (.inr h)

/-- What a run comes to, where what is lost stays lost. -/
theorem Leads.run (hlost : ∀ {fuel : Nat} {t : τ} {g : γ} {flow : Flow τ γ ρ}, body fuel t g = some flow → lost g → lost flow.state)
    (h : Leads body lost Q t g) {fuel : Nat} {r : ρ} {g' : γ} (hr : run body fuel t g = some (r, g')) : Q r g' ∨ lost g' := by
  induction h generalizing fuel with
  | lost h => exact .inr (run_keeps hlost hr h)
  | done pass h =>
    cases fuel with
    | zero => cases hr
    | succ fuel =>
      rw [Loop.run, pass fuel] at hr
      cases hr
      exact h
  | next pass _ ih =>
    cases fuel with
    | zero => cases hr
    | succ fuel =>
      rw [Loop.run, pass fuel] at hr
      exact ih hr

/-- A loop that cannot get lost ends. -/
theorem Leads.ends (hlost : ∀ g, ¬ lost g) (h : Leads body lost Q t g) :
    ∃ fuel result, ∀ n, fuel ≤ n → Loop.run body n t g = some result := by
  induction h with
  | lost h => exact absurd h (hlost _)
  | @done t g g' r pass _ =>
    refine ⟨1, (r, g'), fun n hn => ?_⟩
    obtain ⟨n, rfl⟩ := Nat.exists_eq_add_of_le' hn
    rw [Loop.run, pass n]
  | next pass _ ih =>
    obtain ⟨fuel, result, hfuel⟩ := ih
    refine ⟨fuel + 1, result, fun n hn => ?_⟩
    obtain ⟨n, rfl⟩ := Nat.exists_eq_add_of_le' (Nat.le_trans (Nat.le_add_left 1 fuel) hn)
    rw [Loop.run, pass n]
    exact hfuel n (Nat.succ_le_succ_iff.1 hn)

end Loop
