/-!
# Requests one after the other

A server answers a request from every state it may be in. What it answers to one request, it
answers to each in a session, unless it gets lost.
-/

namespace Session
variable {γ θ α : Type}

/-- The answers to a list of requests. -/
def serve (act : Nat → θ → γ → Option (α × γ)) (fuel : Nat) : List θ → γ → Option (List α × γ)
  | [], s => some ([], s)
  | q :: qs, s => do
    let (a, s) ← act fuel q s
    let (answers, s) ← serve act fuel qs s
    some (a :: answers, s)

variable {act : Nat → θ → γ → Option (α × γ)} {fuel : Nat} {qs : List θ} {s s' : γ} {lost : γ → Prop}

theorem serve_lost (hact : ∀ {fuel q s a s'}, act fuel q s = some (a, s') → lost s → lost s') {answers : List α}
    (h : serve act fuel qs s = some (answers, s')) (hs : lost s) : lost s' := by
  induction qs generalizing s answers with
  | nil =>
    cases h
    exact hs
  | cons q qs ih =>
    obtain ⟨⟨a, s₁⟩, hfirst, h⟩ := Option.bind_eq_some_iff.1 h
    obtain ⟨⟨rest, s₂⟩, hrest, h⟩ := Option.bind_eq_some_iff.1 h
    cases h
    exact ih hrest (hact hfirst hs)

/-- **What a session comes to.** `inv` is what answering a request keeps. -/
theorem serve_delivers {dom : θ → Prop} {wanted : θ → α} (inv : γ → Prop)
    (hact : ∀ {fuel q s a s'}, act fuel q s = some (a, s') → lost s → lost s')
    (hone : ∀ {fuel q s a s'}, dom q → inv s → act fuel q s = some (a, s') → a = wanted q ∧ inv s' ∨ lost s') (hqs : ∀ q ∈ qs, dom q)
    {answers : List α} (h : serve act fuel qs s = some (answers, s')) (hs : inv s) : answers = qs.map wanted ∧ inv s' ∨ lost s' := by
  induction qs generalizing s answers with
  | nil =>
    cases h
    exact .inl ⟨rfl, hs⟩
  | cons q qs ih =>
    obtain ⟨⟨a, s₁⟩, hfirst, h⟩ := Option.bind_eq_some_iff.1 h
    obtain ⟨⟨rest, s₂⟩, hrest, h⟩ := Option.bind_eq_some_iff.1 h
    cases h
    obtain ⟨rfl, hs₁⟩ | hlost := hone (hqs q List.mem_cons_self) hs hfirst
    · obtain ⟨rfl, hs₂⟩ | hlost := ih (fun q hq => hqs q (List.mem_cons_of_mem _ hq)) hrest hs₁
      · exact .inl ⟨rfl, hs₂⟩
      · exact .inr hlost
    · exact .inr (serve_lost hact hrest hlost)

/-- A session ends if each request does, where the invariant holds. -/
theorem serve_ends {dom : θ → Prop} (inv : γ → Prop)
    (hone : ∀ {q s}, dom q → inv s → ∃ fuel a s', inv s' ∧ ∀ k, fuel ≤ k → act k q s = some (a, s')) (hqs : ∀ q ∈ qs, dom q) (hs : inv s) :
    ∃ fuel result, ∀ k, fuel ≤ k → serve act k qs s = some result := by
  induction qs generalizing s with
  | nil => exact ⟨0, ([], s), fun _ _ => rfl⟩
  | cons q qs ih =>
    obtain ⟨fuel, a, s₁, hs₁, hfirst⟩ := hone (hqs q List.mem_cons_self) hs
    obtain ⟨fuel', ⟨rest, s₂⟩, hrest⟩ := ih (fun q hq => hqs q (List.mem_cons_of_mem _ hq)) hs₁
    refine ⟨max fuel fuel', (a :: rest, s₂), fun k hk => ?_⟩
    rw [serve, hfirst k (Nat.le_trans (Nat.le_max_left _ _) hk)]
    show (serve act k qs s₁).bind _ = _
    rw [hrest k (Nat.le_trans (Nat.le_max_right _ _) hk)]
    rfl

/-! ## What holds along a session -/

section Along
variable {next : θ → γ → γ} {P Q : θ → γ → Prop}

/-- Every request of a session finds a state where `P` holds of it. -/
def Along (next : θ → γ → γ) (P : θ → γ → Prop) : List θ → γ → Prop
  | [], _ => True
  | q :: qs, s => P q s ∧ Along next P qs (next q s)

/-- Two sessions whose states stay related. -/
theorem Along.related {next' : θ → γ → γ} {dom : θ → Prop} (R : γ → γ → Prop)
    (hnext : ∀ {q s s'}, dom q → R s s' → R (next q s) (next' q s'))
    (himp : ∀ {q s s'}, dom q → R s s' → P q s → Q q s') (hqs : ∀ q ∈ qs, dom q) (hs : R s s') (h : Along next P qs s) :
    Along next' Q qs s' := by
  induction qs generalizing s s' with
  | nil => trivial
  | cons q qs ih =>
    have hq := hqs q List.mem_cons_self
    exact ⟨himp hq hs h.1, ih (fun q hq => hqs q (List.mem_cons_of_mem _ hq)) (hnext hq hs) h.2⟩

theorem Along.imp {dom : θ → Prop} (inv : γ → Prop) (hnext : ∀ {q s}, dom q → inv s → inv (next q s))
    (himp : ∀ {q s}, dom q → inv s → P q s → Q q s) (hqs : ∀ q ∈ qs, dom q) (hs : inv s) (h : Along next P qs s) : Along next Q qs s := by
  apply h.related (fun s s' => s = s' ∧ inv s) _ _ hqs ⟨rfl, hs⟩
  · rintro q s _ hq ⟨rfl, hs⟩
    exact ⟨rfl, hnext hq hs⟩
  · rintro q s _ hq ⟨rfl, hs⟩
    exact himp hq hs

/-- What an invariant gives holds along every session. -/
theorem Along.always {dom : θ → Prop} (inv : γ → Prop) (hnext : ∀ {q s}, dom q → inv s → inv (next q s))
    (h : ∀ {q s}, dom q → inv s → Q q s)
    (hqs : ∀ q ∈ qs, dom q) (hs : inv s) : Along next Q qs s := by
  induction qs generalizing s with
  | nil => trivial
  | cons q qs ih =>
    have hq := hqs q List.mem_cons_self
    exact ⟨h hq hs, ih (fun q hq => hqs q (List.mem_cons_of_mem _ hq)) (hnext hq hs)⟩

/-- Sessions side by side, that start in the states `S`: what all of them need of a request, one
of them needs. -/
theorem Along.of_all {ι : Type} {next : ι → θ → γ → γ} {P : ι → θ → γ → Prop} {dom : θ → Prop} (i₀ : ι) (inv : (ι → γ) → Prop)
    (hnext : ∀ {q S}, dom q → inv S → inv fun i => next i q (S i)) (hall : ∀ {q S}, dom q → inv S → (∀ i, P i q (S i)) → Q q (S i₀))
    (hqs : ∀ q ∈ qs, dom q) {S : ι → γ} (hS : inv S) (h : ∀ i, Along (next i) (P i) qs (S i)) : Along (next i₀) Q qs (S i₀) := by
  induction qs generalizing S with
  | nil => trivial
  | cons q qs ih =>
    have hq := hqs q List.mem_cons_self
    exact ⟨hall hq hS fun i => (h i).1, ih (fun q hq => hqs q (List.mem_cons_of_mem _ hq)) (hnext hq hS) fun i => (h i).2⟩

end Along

end Session
