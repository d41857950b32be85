import TrustedGrub.Builtins.ToggleBlocks

/-!
# Definitions that are refused

The condition under which a definition hangs in no value before it is refused, and what it leaves then.
-/

namespace TrustedGrub.Builtins
open Fips180 (Byte)
open Disk (GrubError)

namespace State
variable {s s₀ s₁ s' : State} {slot bl var : Nat} {name value : List Byte} {b : Block}

/-- There is room for the value, and for the name where it is a new one. -/
def CanHang (s : State) (name value : List Byte) : Prop :=
  name ≠ [] ∧ s.actpos + (value.length + 1) ≤ variableStoreSize ∧
    (s.getIndex name = none → Vars.saneName name ∧ s.getFreeVar.isSome ∧
      s.actpos + (value.length + 1) + (name.length + 1) ≤ variableStoreSize)

theorem copy_room {vars vars' : Vars} {p : Nat} {text : List Byte} (h : vars.copy text = some (p, vars')) :
    vars.actpos + (text.length + 1) ≤ variableStoreSize ∧ p = vars.actpos ∧ vars'.actpos = vars.actpos + (text.length + 1) ∧
      vars'.list = vars.list := by
  unfold Vars.copy Vars.allocMem at h
  split at h
  · cases h
  next hroom =>
    obtain ⟨rfl, rfl⟩ := Prod.mk.inj (Option.some.inj h)
    exact ⟨by omega, rfl, rfl, rfl⟩

/-- A value that is hung in has had room. -/
theorem Fine.canHang (h : s.Fine) (hvalue : (0 : Byte) ∉ value) (hdone : s.hangIn slot bl var name value = (true, s')) :
    s.CanHang name value := by
  unfold State.hangIn at hdone
  cases hcopy : s.copy value with
  | none =>
    rw [hcopy] at hdone
    cases hdone
  | some r =>
    obtain ⟨p, vars⟩ := r
    rw [hcopy] at hdone
    dsimp only at hdone
    obtain ⟨hroom, hp, hactpos, hlist⟩ := copy_room hcopy
    have hcopied := h.inv.copy hvalue hcopy
    cases hi : (s.withVars (vars.setNoCopy name (some p)).2).getIndex name with
    | none =>
      rw [hi] at hdone
      cases hdone
    | some i =>
      refine ⟨(Vars.named_of_getIndex hi).2.2, hroom, fun hnone => ?_⟩
      have hnone' : vars.getIndex name = none := by
        rw [Vars.getIndex_congr fun j _ => hcopied.named j name]
        exact hnone
      have hin : (some p).all (fun p => decide (variableStoreSize ≤ p)) = false := by
        rw [Option.all_some, decide_eq_false_iff_not]
        omega
      have hset : (vars.setNoCopy name (some p)).2.getIndex name = some i := hi
      rw [Vars.setNoCopy, if_neg (by rw [hin]; exact Bool.false_ne_true), hnone'] at hset
      cases hnew : vars.newVar name with
      | none =>
        rw [hnew] at hset
        exact absurd (hnone'.symm.trans hset) (Option.some_ne_none i).symm
      | some r =>
        obtain ⟨j, vars'⟩ := r
        obtain ⟨hsane, hfree, hname, -⟩ := Vars.newVar_room hnew
        rw [hactpos] at hname
        unfold Vars.getFreeVar at hfree
        rw [hlist] at hfree
        exact ⟨hsane, hfree, hname⟩

/-! ## Assignments that are skipped -/

/-- Only how many assignments the blocks of a slot have is different. -/
structure Recounted (s s' : State) (slot : Nat) : Prop where
  vars : s'.toVars = s.toVars
  entry : ∀ slot' bl var, s'.entry slot' bl var = s.entry slot' bl var
  used : s'.togglesUsed = s.togglesUsed
  key : (s'.toggleData slot).key = (s.toggleData slot).key
  nrBlocks : (s'.toggleData slot).nrBlocks = (s.toggleData slot).nrBlocks
  shape : ∀ slot', slot' ≠ slot → SameShape (s.toggleData slot') (s'.toggleData slot')

theorem SameShape.trans {t t₁ t' : Toggle} (h : SameShape t t₁) (h' : SameShape t₁ t') : SameShape t t' :=
  ⟨h'.key.trans h.key, h'.currentBlock.trans h.currentBlock, h'.nrBlocks.trans h.nrBlocks, fun bl => (h'.nrVars bl).trans (h.nrVars bl)⟩

theorem Recounted.refl (s : State) (slot : Nat) : Recounted s s slot :=
  ⟨rfl, fun _ _ _ => rfl, rfl, rfl, rfl, fun _ _ => ⟨rfl, rfl, rfl, fun _ => rfl⟩⟩

theorem Recounted.countVar (h : Recounted s s₁ slot) (bl var : Nat) : Recounted s (s₁.countVar slot bl var) slot := by
  have hcounted := s₁.countVar_counted slot bl var
  exact ⟨h.vars, fun slot' bl' var' => (s₁.countVar_entry slot bl var slot' bl' var').trans (h.entry slot' bl' var'),
    hcounted.used.trans h.used,
    hcounted.key.trans h.key, hcounted.nrBlocks.trans h.nrBlocks,
      fun slot' hslot => (h.shape slot' hslot).trans (hcounted.shape slot' hslot)⟩

theorem Recounted.frame (h : Recounted s s' slot) : Frame s s' := by
  refine ⟨fun i n hn => ?_, fun p _ => ?_⟩
  · rw [h.vars]
    exact hn
  · rw [h.vars]

theorem Recounted.fine (h : Recounted s s' slot) (hfine : s.Fine) : s'.Fine := by
  have hentries : s'.Entries = s.Entries := by
    unfold Entries
    simp only [h.entry]
  refine ⟨?_, ?_⟩
  · rw [h.vars, hentries]
    exact hfine.inv
  · rw [h.vars]
    exact hfine.valued

theorem Recounted.hasValue (h : Recounted s s' slot) (bl var : Nat) (name value : List Byte) :
    s'.hasValue slot bl var name value = s.hasValue slot bl var name value := by
  unfold State.hasValue
  rw [h.entry, h.vars]

theorem Recounted.canHang (h : Recounted s s' slot) (hcan : s'.CanHang name value) : s.CanHang name value := by
  unfold CanHang at hcan ⊢
  rwa [h.vars] at hcan

/-- No value has been hung in. -/
structure Idle (s s' : State) (slot : Nat) : Prop where
  fine : s'.Fine
  get : ∀ n, s'.get n = s.get n
  used : s'.togglesUsed = s.togglesUsed
  key : (s'.toggleData slot).key = (s.toggleData slot).key
  nrBlocks : (s'.toggleData slot).nrBlocks = (s.toggleData slot).nrBlocks
  shape : ∀ slot', slot' ≠ slot → SameShape (s.toggleData slot') (s'.toggleData slot')
  others : ∀ slot' bl' b, slot' ≠ slot → s.HasBlock slot' bl' b → s'.HasBlock slot' bl' b

theorem Recounted.idle (h : Recounted s s' slot) (hfine : s.Fine) : Idle s s' slot where
  fine := h.fine hfine
  get n := by rw [h.vars]
  used := h.used
  key := h.key
  nrBlocks := h.nrBlocks
  shape := h.shape
  others slot' bl' _ hslot hblock := hblock.frame h.frame ⟨h.shape slot' hslot, fun bl var => h.entry slot' bl var⟩

/-- The value has not been hung in. -/
theorem Recounted.hungIn (h : Recounted s s₁ slot) (hhung : HungIn s₁ s' slot bl var name value false) : Idle s s' slot where
  fine := hhung.fine
  get n := by
    rw [hhung.keeps.others n fun hok => (nomatch hok), h.vars]
  used := hhung.table.used.trans h.used
  key := (hhung.table.shape slot).key.trans h.key
  nrBlocks := (hhung.table.shape slot).nrBlocks.trans h.nrBlocks
  shape slot' hslot := (h.shape slot' hslot).trans (hhung.table.shape slot')
  others slot' bl' _ hslot hblock := by
    have hblock' := hblock.frame h.frame ⟨h.shape slot' hslot, fun bl var => h.entry slot' bl var⟩
    refine hblock'.frame hhung.frame ⟨hhung.table.shape slot', fun bl' var' => hhung.entries slot' bl' var' fun hsame => hslot ?_⟩
    exact (Prod.mk.inj hsame).1.symm

/-! ## Lines that spare the variables -/

/-- No assignment of a block is hung in before one is refused, or before what comes behind the block. -/
def SparesVars (s : State) (slot bl : Nat) (behind : Prop) : Nat → List (List Byte) → Prop
  | _, [] => behind
  | var, text :: texts => var = maxVarPerBlock ∨ ∀ name value, parseVar text = some (name, value) →
      if s.hasValue slot bl var name value then s.SparesVars slot bl behind (var + 1) texts else ¬ s.CanHang name value

/-- No assignment of the blocks is hung in before one of them is refused. -/
def Spares (s : State) (slot : Nat) : Nat → List (Option (List Byte)) → Prop
  | _, [] => False
  | _, none :: _ => True
  | bl, some body :: texts => s.SparesVars slot bl (texts ≠ [] ∧ bl + 1 = maxBlocks ∨ s.Spares slot (bl + 1) texts) 0 (splitVars [] body)

theorem processVar_spared (h₀ : s₀.Fine) (h : Recounted s₀ s slot) {text : List Byte} (htext : (0 : Byte) ∉ text)
    (hrefused : s.processVar slot bl var text = (false, s')) : Idle s₀ s' slot := by
  unfold processVar at hrefused
  cases hparse : parseVar text with
  | none =>
    rw [hparse] at hrefused
    obtain ⟨-, rfl⟩ := Prod.mk.inj hrefused
    exact h.idle h₀
  | some r =>
    obtain ⟨name, value⟩ := r
    obtain ⟨hname, hvalue⟩ := parseVar_chars hparse htext
    rw [hparse] at hrefused
    dsimp only at hrefused
    split at hrefused
    · cases hrefused
    · have hhung := (h.fine h₀).hangIn slot bl var hname hvalue
      rcases hcall : s.hangIn slot bl var name value with ⟨_ | _, s₁⟩
      · rw [hcall] at hrefused hhung
        obtain ⟨-, rfl⟩ := Prod.mk.inj hrefused
        exact h.hungIn hhung
      · rw [hcall] at hrefused
        cases hrefused

/-- An assignment that is made, where none can be hung in. -/
theorem processVar_skipped (h₀ : s₀.Fine) (h : Recounted s₀ s slot) {text : List Byte} (htext : (0 : Byte) ∉ text) {behind : Prop}
    {texts : List (List Byte)}
    (hvar : var ≠ maxVarPerBlock) (hspares : s₀.SparesVars slot bl behind var (text :: texts))
    (hdone : s.processVar slot bl var text = (true, s')) :
    Recounted s₀ s' slot ∧ s₀.SparesVars slot bl behind (var + 1) texts := by
  obtain ⟨⟨name, value⟩, hparse⟩ := parse_of_processVar hdone
  obtain ⟨-, hvalue⟩ := parseVar_chars hparse htext
  have hplace := (hspares.resolve_left hvar) name value hparse
  rw [processVar, hparse] at hdone
  dsimp only at hdone
  split at hdone
  next hskip =>
    obtain ⟨-, rfl⟩ := Prod.mk.inj hdone
    rw [h.hasValue] at hskip
    rw [if_pos hskip] at hplace
    exact ⟨h.countVar bl var, hplace⟩
  next hskip =>
    rw [h.hasValue] at hskip
    rw [if_neg hskip] at hplace
    rcases hcall : s.hangIn slot bl var name value with ⟨_ | _, s₁⟩
    · rw [hcall] at hdone
      cases hdone
    · exact absurd (h.canHang ((h.fine h₀).canHang hvalue hcall)) hplace

theorem processBlock_spared (h₀ : s₀.Fine) {behind : Prop} (texts : List (List Byte)) : ∀ {s : State} {var : Nat}, Recounted s₀ s slot →
    (∀ text ∈ texts, (0 : Byte) ∉ text) → s₀.SparesVars slot bl behind var texts →
    ((s.processBlock slot bl var texts).1 = none ∧ behind ∧ Recounted s₀ (s.processBlock slot bl var texts).2 slot) ∨
      ((s.processBlock slot bl var texts).1 ≠ none ∧ Idle s₀ (s.processBlock slot bl var texts).2 slot) := by
  induction texts with
  | nil => exact fun h _ hspares => .inl ⟨rfl, hspares, h⟩
  | cons text texts ih =>
    intro s var h htexts hspares
    have htext : (0 : Byte) ∉ text := htexts text List.mem_cons_self
    rw [processBlock]
    split
    · exact .inr ⟨Option.some_ne_none _, h.idle h₀⟩
    next hvar =>
      rcases hprocess : s.processVar slot bl var text with ⟨_ | _, s₁⟩
      · exact .inr ⟨Option.some_ne_none _, processVar_spared h₀ h htext hprocess⟩
      · obtain ⟨h₁, hrest⟩ := processVar_skipped h₀ h htext hvar hspares hprocess
        exact ih h₁ (fun t ht => htexts t (List.mem_cons_of_mem _ ht)) hrest

/-- **The blocks of a definition that is refused.** -/
theorem processBlocks_spared (h₀ : s₀.Fine) {err : GrubError} (texts : List (Option (List Byte))) :
    ∀ {s : State} {bl : Nat}, Recounted s₀ s slot →
    (∀ body, some body ∈ texts → (0 : Byte) ∉ body) → s₀.Spares slot bl texts → s.processBlocks slot bl texts = (some err, s') →
      Idle s₀ s' slot := by
  induction texts with
  | nil => exact fun _ _ hspares => hspares.elim
  | cons text texts ih =>
    intro s bl h htexts hspares hrefused
    cases text with
    | none =>
      obtain ⟨-, rfl⟩ := Prod.mk.inj hrefused
      exact h.idle h₀
    | some body =>
      have hchars := splitVars_chars [] body List.not_mem_nil (htexts body List.mem_cons_self)
      have hblock := processBlock_spared h₀ _ h hchars hspares
      rw [processBlocks] at hrefused
      rcases hprocess : s.processBlock slot bl 0 (splitVars [] body) with ⟨_ | _, s₁⟩
      · rw [hprocess] at hrefused hblock
        obtain ⟨-, hbehind, h₁⟩ := hblock.resolve_right fun hrefused => hrefused.1 rfl
        dsimp only at hrefused
        split at hrefused
        · obtain ⟨-, rfl⟩ := Prod.mk.inj hrefused
          exact h₁.idle h₀
        next hfits => exact ih h₁ (fun t ht => htexts t (List.mem_cons_of_mem _ ht)) (hbehind.resolve_left hfits) hrefused
      · rw [hprocess] at hrefused hblock
        obtain ⟨-, rfl⟩ := Prod.mk.inj hrefused
        exact (hblock.resolve_left fun hdone => Option.some_ne_none _ hdone.1).2

end State

end TrustedGrub.Builtins
