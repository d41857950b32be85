import TrustedGrub.Builtins.VariableCalls

/-!
# The blocks of a toggle

What the definition of a toggle leaves in its slot, and what the variables are when one of its blocks has
been done.
-/

namespace TrustedGrub.Builtins
open Fips180 (Byte)

/-- The assignments of a block. -/
abbrev Block := List (List Byte × List Byte)

/-- The variables after the assignments, one after the other. -/
def assigned (b : Block) (vars : List Byte → Option (List Byte)) : List Byte → Option (List Byte) :=
  b.foldl (fun vars e => Function.update vars e.1 (some e.2)) vars

namespace State
variable {s s₁ s' : State} {slot bl var : Nat} {name value : List Byte} {b : Block}

/-! ## Frames -/

theorem Frame.refl (s : State) : Frame s s := ⟨fun _ _ h => h, fun _ _ => rfl⟩

/-- The assignment stays, where its entry does. -/
theorem Assigns.frame (h : s.Assigns slot bl var name value) (hframe : Frame s s') (hentry : s'.entry slot bl var = s.entry slot bl var) :
    s'.Assigns slot bl var name value := by
  obtain ⟨i, p, he, hi, hne, hnamed, hp⟩ := h
  exact ⟨i, p, hentry.trans he, hi, hne, hframe.named i name hnamed, (hframe.strs p ⟨slot, bl, var, congrArg ToggleVar.value he⟩).trans hp⟩

/-- The slot holds the assignments of the block, and no more. -/
structure HasBlock (s : State) (slot bl : Nat) (b : Block) : Prop where
  nrVars : ((s.toggleData slot).block bl).nrVars = b.length
  assigns : ∀ v e, b[v]? = some e → s.Assigns slot bl v e.1 e.2

/-- A slot is as it was, with its assignments. -/
structure SameSlot (s s' : State) (slot : Nat) : Prop where
  shape : SameShape (s.toggleData slot) (s'.toggleData slot)
  entries : ∀ bl var, s'.entry slot bl var = s.entry slot bl var

theorem SameSlot.of_eq (h : s'.toggleData slot = s.toggleData slot) : SameSlot s s' slot := by
  refine ⟨?_, fun bl var => ?_⟩
  · rw [h]
    exact ⟨rfl, rfl, rfl, fun _ => rfl⟩
  · unfold entry
    rw [h]

theorem HasBlock.frame (h : s.HasBlock slot bl b) (hframe : Frame s s') (hslot : SameSlot s s' slot) : s'.HasBlock slot bl b :=
  ⟨(hslot.shape.nrVars bl).trans h.nrVars, fun v e he => (h.assigns v e he).frame hframe (hslot.entries bl v)⟩

/-! ## Blocks that are done -/

/-- Only the variables have changed. -/
structure Done (s s' : State) (b : Block) : Prop where
  fine : s'.Fine
  frame : Frame s s'
  used : s'.togglesUsed = s.togglesUsed
  toggles : s'.toggleData = s.toggleData
  get : ∀ n, s'.get n = assigned b s.get n

theorem doVar_done (h : s.Fine) (hassigns : s.Assigns slot bl var name value) :
    ∃ s', s.doVar slot bl var = some s' ∧ Done s s' [(name, value)] := by
  obtain ⟨i, p, he, hi, hne, ⟨a, ha, hstr⟩, hp⟩ := hassigns
  have hchars : (0 : Byte) ∉ name := by
    rw [← hstr]
    exact Packed.not_mem_text _
  have hin : p ∈ s.Entries := ⟨slot, bl, var, congrArg ToggleVar.value he⟩
  obtain ⟨hkept, -⟩ := h.inv.setNoCopy h.valued hchars hin
  obtain ⟨hfine, hkeeps⟩ := h.withVars hkept
  obtain ⟨j, hj⟩ := Vars.getIndex_isSome hi (hkept.named i name ⟨a, ha, hstr⟩) hne
  rw [hj] at hkeeps
  refine ⟨s.withVars (s.setNoCopy name (some p)).2, ?_, hfine, ⟨hkept.named, hkept.outside⟩, rfl, rfl, fun n => ?_⟩
  · have hrange : (0 : Int) ≤ (i : Int) ∧ (i : Int) < variablesMax := ⟨Int.natCast_nonneg i, Int.ofNat_lt.2 hi⟩
    simp only [doVar, he, if_pos hrange, Int.toNat_natCast, ha]
    show some (s.withVars (s.setNoCopy (s.str a) (some p)).2) = _
    rw [hstr]
  · show _ = Function.update s.get name (some value) n
    by_cases hn : n = name
    · subst hn
      rw [Function.update_self, hkeeps.get rfl, hp]
    · rw [Function.update_of_ne hn, hkeeps.others n fun _ => hn]

theorem Done.trans {b' : Block} (h : Done s s₁ b) (h' : Done s₁ s' b') : Done s s' (b ++ b') where
  fine := h'.fine
  frame := by
    refine ⟨fun i n hn => h'.frame.named i n (h.frame.named i n hn), fun p hp => (h'.frame.strs p ?_).trans (h.frame.strs p hp)⟩
    obtain ⟨slot, bl, var, he⟩ := hp
    refine ⟨slot, bl, var, ?_⟩
    unfold entry at he ⊢
    rw [h.toggles]
    exact he
  used := h'.used.trans h.used
  toggles := h'.toggles.trans h.toggles
  get n := by
    have hget : s₁.get = assigned b s.get := funext h.get
    rw [h'.get, hget, assigned, assigned, assigned, List.foldl_append]

/-- The loop over the assignments, from one of them on. -/
theorem doVars_done (slot bl : Nat) (b : Block) :
    ∀ {s : State} {v : Nat}, s.Fine → (∀ j e, b[j]? = some e → s.Assigns slot bl (v + j) e.1 e.2) →
    ∃ s', (List.range' v b.length).foldlM (fun (s : State) v => s.doVar slot bl v) s = some s' ∧ Done s s' b := by
  induction b with
  | nil => exact fun h _ => ⟨_, rfl, h, .refl _, rfl, rfl, fun _ => rfl⟩
  | cons e b ih =>
    intro s v h hassigns
    obtain ⟨s₁, hvar, hdone⟩ := doVar_done h (hassigns 0 e rfl)
    have hrest : ∀ j e, b[j]? = some e → s₁.Assigns slot bl (v + 1 + j) e.1 e.2 := by
      intro j e' he
      have hentry : s₁.entry slot bl (v + (j + 1)) = s.entry slot bl (v + (j + 1)) := by
        unfold entry
        rw [hdone.toggles]
      rw [Nat.add_assoc, Nat.add_comm 1 j]
      exact (hassigns (j + 1) e' he).frame hdone.frame hentry
    obtain ⟨s', hvars, hdone'⟩ := ih hdone.fine hrest
    refine ⟨s', ?_, hdone.trans hdone'⟩
    rw [List.length_cons, List.range'_succ, List.foldlM_cons]
    exact (Option.bind_eq_some_iff.2 ⟨s₁, hvar, hvars⟩)

/-- **`toggle_do_block`.** -/
theorem doBlock_done (h : s.Fine) (hused : slot < s.togglesUsed) (hbl : bl < (s.toggleData slot).nrBlocks) (hblock : s.HasBlock slot bl b) :
    ∃ s', s.doBlock slot bl = some (true, s') ∧ Done s s' b := by
  obtain ⟨s', hvars, hdone⟩ := doVars_done slot bl b (v := 0) h fun j e he => by
    rw [Nat.zero_add]
    exact hblock.assigns j e he
  refine ⟨s', ?_, hdone⟩
  rw [doBlock, if_neg (by omega), hblock.nrVars, List.range_eq_range', hvars]
  rfl

/-! ## Blocks that are defined -/

/-- The block has been counted up to `n` assignments, and nothing else has changed in the slots. -/
structure Counted (s s' : State) (slot bl n : Nat) : Prop where
  used : s'.togglesUsed = s.togglesUsed
  key : (s'.toggleData slot).key = (s.toggleData slot).key
  currentBlock : (s'.toggleData slot).currentBlock = (s.toggleData slot).currentBlock
  nrBlocks : (s'.toggleData slot).nrBlocks = (s.toggleData slot).nrBlocks
  nrVars : ((s'.toggleData slot).block bl).nrVars = max ((s.toggleData slot).block bl).nrVars n
  nrVarsOther : ∀ bl', bl' ≠ bl → ((s'.toggleData slot).block bl').nrVars = ((s.toggleData slot).block bl').nrVars
  shape : ∀ slot', slot' ≠ slot → SameShape (s.toggleData slot') (s'.toggleData slot')

theorem countVar_counted (s : State) (slot bl var : Nat) : Counted s (s.countVar slot bl var) slot bl (var + 1) := by
  unfold countVar withBlock
  refine ⟨rfl, ?_, ?_, ?_, ?_, fun bl' hbl => ?_, fun slot' hslot => ?_⟩
  all_goals first | rw [withToggle_self] | rw [withToggle_other _ _ hslot]
  · show (Function.update (s.toggleData slot).block bl _ bl).nrVars = _
    rw [Function.update_self]
  · show (Function.update (s.toggleData slot).block bl _ bl').nrVars = _
    rw [Function.update_of_ne hbl]
  · exact ⟨rfl, rfl, rfl, fun _ => rfl⟩

theorem countVar_entry (s : State) (slot bl var slot' bl' var' : Nat) :
    (s.countVar slot bl var).entry slot' bl' var' = s.entry slot' bl' var' := by
  unfold countVar withBlock entry
  by_cases hslot : slot' = slot
  · subst hslot
    rw [withToggle_self]
    show (Function.update (s.toggleData slot').block bl _ bl').var var' = _
    by_cases hbl : bl' = bl
    · subst hbl
      rw [Function.update_self]
    · rw [Function.update_of_ne hbl]
  · rw [withToggle_other _ _ hslot]

theorem SameTable.counted {n : Nat} (h : SameTable s s₁) (h' : Counted s₁ s' slot bl n) : Counted s s' slot bl n where
  used := h'.used.trans h.used
  key := h'.key.trans (h.shape slot).key
  currentBlock := h'.currentBlock.trans (h.shape slot).currentBlock
  nrBlocks := h'.nrBlocks.trans (h.shape slot).nrBlocks
  nrVars := by rw [h'.nrVars, (h.shape slot).nrVars]
  nrVarsOther bl' hbl := (h'.nrVarsOther bl' hbl).trans ((h.shape slot).nrVars bl')
  shape slot' hslot :=
    ⟨(h'.shape slot' hslot).key.trans (h.shape slot').key, (h'.shape slot' hslot).currentBlock.trans (h.shape slot').currentBlock,
    (h'.shape slot' hslot).nrBlocks.trans (h.shape slot').nrBlocks,
      fun bl' => ((h'.shape slot' hslot).nrVars bl').trans ((h.shape slot').nrVars bl')⟩

theorem Counted.trans {n n' : Nat} (h : Counted s s₁ slot bl n) (h' : Counted s₁ s' slot bl n') : Counted s s' slot bl (max n n') where
  used := h'.used.trans h.used
  key := h'.key.trans h.key
  currentBlock := h'.currentBlock.trans h.currentBlock
  nrBlocks := h'.nrBlocks.trans h.nrBlocks
  nrVars := by rw [h'.nrVars, h.nrVars, Nat.max_assoc]
  nrVarsOther bl' hbl := (h'.nrVarsOther bl' hbl).trans (h.nrVarsOther bl' hbl)
  shape slot' hslot := ⟨(h'.shape slot' hslot).key.trans (h.shape slot' hslot).key,
    (h'.shape slot' hslot).currentBlock.trans (h.shape slot' hslot).currentBlock,
      (h'.shape slot' hslot).nrBlocks.trans (h.shape slot' hslot).nrBlocks,
    fun bl' => ((h'.shape slot' hslot).nrVars bl').trans ((h.shape slot' hslot).nrVars bl')⟩

/-- Assignments of a block have been processed, from number `var` on. -/
structure Processed (s s' : State) (slot bl var : Nat) (b : Block) : Prop where
  fine : s'.Fine
  named : ∀ i n, s.Named i n → s'.Named i n
  get : ∀ n, (∀ e ∈ b, e.1 ≠ n) → s'.get n = s.get n
  counted : Counted s s' slot bl (if b = [] then 0 else var + b.length)
  entries :
      ∀ slot' bl' var', (slot' = slot → bl' = bl → var' < var ∨ var + b.length ≤ var') → s'.entry slot' bl' var' = s.entry slot' bl' var'
  texts : ∀ slot' bl' var', (slot' = slot → bl' = bl → var' < var ∨ var + b.length ≤ var') → s'.text slot' bl' var' = s.text slot' bl' var'
  keeps : ∀ slot' bl' var' name value, (slot' = slot → bl' = bl → var' < var ∨ var + b.length ≤ var') →
    s.Assigns slot' bl' var' name value → s'.Assigns slot' bl' var' name value
  assigns : ∀ v e, b[v]? = some e → s'.Assigns slot bl (var + v) e.1 e.2

/-- The entry of an assignment has its value from before, for another variable. The name is known, or is one of
those that are assigned before. -/
def Shares (s : State) (slot bl var : Nat) (e : List Byte × List Byte) (before : Block) : Prop :=
  s.text slot bl var = some e.2 ∧ (s.get e.1 ≠ none ∨ ∃ d ∈ before, d.1 = e.1) ∧
    ¬ ∃ i : Nat, (s.entry slot bl var).var = i ∧ i < variablesMax ∧ s.Named i e.1

/-- What is shared behind assignments has been shared before them. -/
theorem Processed.shares {before : Block} {slot' bl' var' : Nat} {e : List Byte × List Byte} (h : Processed s s' slot bl var b)
    (hother : slot' = slot → bl' = bl → var' < var ∨ var + b.length ≤ var') (hshares : s'.Shares slot' bl' var' e before) :
    s.Shares slot' bl' var' e (b ++ before) := by
  obtain ⟨htext, hknown, hvar⟩ := hshares
  rw [h.texts slot' bl' var' hother] at htext
  rw [h.entries slot' bl' var' hother] at hvar
  refine ⟨htext, ?_, fun ⟨i, hi, hlt, hn⟩ => hvar ⟨i, hi, hlt, h.named i e.1 hn⟩⟩
  by_cases hin : ∃ d ∈ b, d.1 = e.1
  · obtain ⟨d, hd, hde⟩ := hin
    exact .inr ⟨d, List.mem_append_left _ hd, hde⟩
  · obtain hget | ⟨d, hd, hde⟩ := hknown
    · rw [h.get e.1 fun d hd hde => hin ⟨d, hd, hde⟩] at hget
      exact .inl hget
    · exact .inr ⟨d, List.mem_append_right _ hd, hde⟩

theorem hasValue_iff (s : State) (slot bl var : Nat) (name value : List Byte) :
    s.hasValue slot bl var name value ↔ s.text slot bl var = some value ∧ ∃ i, s.getIndex name = some i := by
  unfold hasValue text
  rw [Bool.and_eq_true, Option.any_eq_true, Option.isSome_iff_exists, Option.map_eq_some_iff]
  simp only [decide_eq_true_iff]

/-- A variable that is listed has a value. -/
theorem Fine.get_ne_none {i : Nat} (h : s.Fine) (hi : s.getIndex name = some i) : s.get name ≠ none := by
  obtain ⟨-, ⟨a, ha, -⟩, -⟩ := Vars.named_of_getIndex hi
  obtain ⟨p, hp⟩ := Option.isSome_iff_exists.1 (h.valued i (Option.isSome_iff_exists.2 ⟨a, ha⟩))
  rw [Vars.get_of_getIndex hi, hp]
  exact Option.some_ne_none _

theorem Fine.countVar (h : s.Fine) (slot bl var : Nat) : (s.countVar slot bl var).Fine := by
  refine ⟨?_, h.valued⟩
  have hentries : (s.countVar slot bl var).Entries = s.Entries := by
    unfold Entries
    simp only [s.countVar_entry slot bl var]
  rw [hentries]
  exact h.inv

theorem countVar_text (s : State) (slot bl var slot' bl' var' : Nat) :
    (s.countVar slot bl var).text slot' bl' var' = s.text slot' bl' var' := by
  unfold text
  rw [countVar_entry]
  rfl

theorem Assigns.singleton (h : s.Assigns slot bl var name value) :
    ∀ v e, [(name, value)][v]? = some e → s.Assigns slot bl (var + v) e.1 e.2 := by
  intro v e he
  cases v with
  | zero =>
    cases he
    exact h
  | succ v => cases he

/-- **An assignment.** -/
theorem processVar_done (h : s.Fine) {text : List Byte} (htext : (0 : Byte) ∉ text) (hparse : parseVar text = some (name, value))
    (hclean : ¬ s.Shares slot bl var (name, value) []) (hdone : s.processVar slot bl var text = (true, s')) :
    Processed s s' slot bl var [(name, value)] := by
  obtain ⟨hname, hvalue⟩ := parseVar_chars hparse htext
  rw [processVar, hparse] at hdone
  dsimp only at hdone
  split at hdone
  next hskip =>
    obtain ⟨-, rfl⟩ := Prod.mk.inj hdone
    obtain ⟨hsame, j, hj⟩ := (s.hasValue_iff _ _ _ _ _).1 hskip
    obtain ⟨p, hp, hstr⟩ := Option.map_eq_some_iff.1 hsame
    obtain ⟨i, hvar, hi, hnamed⟩ : ∃ i : Nat, (s.entry slot bl var).var = i ∧ i < variablesMax ∧ s.Named i name :=
      not_not.1 fun hvar => hclean ⟨hsame, .inl (h.get_ne_none hj), hvar⟩
    have hentry := s.countVar_entry slot bl var
    have hassigns : (s.countVar slot bl var).Assigns slot bl var name value := by
      refine ⟨i, p, ?_, hi, (Vars.named_of_getIndex hj).2.2, hnamed, hstr⟩
      rw [hentry, ← hvar, ← hp]
    exact ⟨h.countVar slot bl var, fun _ _ hn => hn, fun _ _ => rfl, s.countVar_counted slot bl var, fun _ _ _ _ => hentry _ _ _,
      fun _ _ _ _ => s.countVar_text slot bl var _ _ _,
      fun _ _ _ _ _ _ hassigns => hassigns.frame ⟨fun _ _ hn => hn, fun _ _ => rfl⟩ (hentry _ _ _), hassigns.singleton⟩
  next =>
    have hhung := h.hangIn slot bl var hname hvalue
    rcases hcall : s.hangIn slot bl var name value with ⟨_ | _, s₁⟩
    · rw [hcall] at hdone
      cases hdone
    · rw [hcall] at hdone hhung
      obtain ⟨-, rfl⟩ := Prod.mk.inj hdone
      have hentry := s₁.countVar_entry slot bl var
      have hframe : Frame s₁ (s₁.countVar slot bl var) := ⟨fun _ _ hn => hn, fun _ _ => rfl⟩
      have hapart : ∀ slot' bl' var', (slot' = slot → bl' = bl → var' < var ∨ var + 1 ≤ var') → (slot, bl, var) ≠ (slot', bl', var') := by
        intro slot' bl' var' hother hsame
        obtain ⟨rfl, rfl, rfl⟩ : slot = slot' ∧ bl = bl' ∧ var = var' := by simpa using hsame
        have hin := hother rfl rfl
        omega
      have hentries : ∀ slot' bl' var', (slot' = slot → bl' = bl → var' < var ∨ var + 1 ≤ var') →
          (s₁.countVar slot bl var).entry slot' bl' var' = s.entry slot' bl' var' :=
        fun slot' bl' var' hother => (hentry _ _ _).trans (hhung.entries slot' bl' var' (hapart slot' bl' var' hother))
      refine ⟨hhung.fine.countVar slot bl var, hhung.frame.named, fun n hn => ?_, hhung.table.counted (s₁.countVar_counted slot bl var),
        hentries,
        fun slot' bl' var' hother => ?_, fun slot' bl' var' _ _ hother hassigns => ?_,
        ((hhung.assigns rfl).frame hframe (hentry _ _ _)).singleton⟩
      · exact hhung.keeps.others n fun _ hsame => hn _ (List.mem_singleton.2 rfl) hsame.symm
      · rw [countVar_text]
        exact hhung.keeps.blocks slot' bl' var' fun _ hsame => hapart slot' bl' var' hother (Option.some.inj hsame)
      · exact hassigns.frame ⟨hhung.frame.named, hhung.frame.strs⟩ (hentries slot' bl' var' hother)

theorem Processed.nil (h : s.Fine) (slot bl var : Nat) : Processed s s slot bl var [] where
  fine := h
  named _ _ hn := hn
  get _ _ := rfl
  counted := ⟨rfl, rfl, rfl, rfl, (Nat.max_zero _).symm, fun _ _ => rfl, fun _ _ => ⟨rfl, rfl, rfl, fun _ => rfl⟩⟩
  entries _ _ _ _ := rfl
  texts _ _ _ _ := rfl
  keeps _ _ _ _ _ _ hassigns := hassigns
  assigns v e he := by cases he

theorem Processed.cons {e : List Byte × List Byte} (h : Processed s s₁ slot bl var [e]) (h' : Processed s₁ s' slot bl (var + 1) b) :
    Processed s s' slot bl var (e :: b) := by
  have hfirst : ∀ {slot' bl' var'}, (slot' = slot → bl' = bl → var' < var ∨ var + (e :: b).length ≤ var') →
      slot' = slot → bl' = bl → var' < var ∨ var + [e].length ≤ var' := by
    intro slot' bl' var' hother hslot hbl
    have hin := hother hslot hbl
    rw [List.length_cons] at hin
    rw [List.length_singleton]
    omega
  have hrest : ∀ {slot' bl' var'}, (slot' = slot → bl' = bl → var' < var ∨ var + (e :: b).length ≤ var') →
      slot' = slot → bl' = bl → var' < var + 1 ∨ var + 1 + b.length ≤ var' := by
    intro slot' bl' var' hother hslot hbl
    have hin := hother hslot hbl
    rw [List.length_cons] at hin
    omega
  refine ⟨h'.fine, fun i n hn => h'.named i n (h.named i n hn), fun n hn => ?_, ?_, fun slot' bl' var' hother => ?_,
    fun slot' bl' var' hother => ?_,
    fun slot' bl' var' _ _ hother hassigns => ?_, fun v d hd => ?_⟩
  · exact (h'.get n fun d hd => hn d (List.mem_cons_of_mem _ hd)).trans
      (h.get n fun d hd => hn d (List.mem_singleton.1 hd ▸ List.mem_cons_self))
  · have hcounted := h.counted.trans h'.counted
    rw [if_neg (List.cons_ne_nil _ _)] at hcounted ⊢
    have hmax : max (var + [e].length) (if b = [] then 0 else var + 1 + b.length) = var + (e :: b).length := by
      cases b with
      | nil =>
        rw [if_pos rfl]
        exact Nat.max_zero _
      | cons d b =>
        rw [if_neg (List.cons_ne_nil _ _)]
        simp only [List.length_cons, List.length_nil]
        omega
    rwa [hmax] at hcounted
  · exact (h'.entries slot' bl' var' (hrest hother)).trans (h.entries slot' bl' var' (hfirst hother))
  · exact (h'.texts slot' bl' var' (hrest hother)).trans (h.texts slot' bl' var' (hfirst hother))
  · exact h'.keeps slot' bl' var' _ _ (hrest hother) (h.keeps slot' bl' var' _ _ (hfirst hother) hassigns)
  · cases v with
    | zero =>
      cases hd
      exact h'.keeps slot bl var _ _ (fun _ _ => .inl (Nat.lt_succ_self var)) (h.assigns 0 e rfl)
    | succ v =>
      have hassigns := h'.assigns v d hd
      rwa [Nat.add_assoc, Nat.add_comm 1 v] at hassigns

/-- An assignment that is made is well formed. -/
theorem parse_of_processVar {text : List Byte} (h : s.processVar slot bl var text = (true, s')) : ∃ e, parseVar text = some e := by
  cases hparse : parseVar text with
  | none =>
    rw [processVar, hparse] at h
    cases h
  | some e => exact ⟨e, rfl⟩

theorem parse_of_processBlock (texts : List (List Byte)) (h : s.processBlock slot bl var texts = (none, s')) :
    ∃ b, texts.mapM parseVar = some b := by
  induction texts generalizing s var with
  | nil => exact ⟨[], rfl⟩
  | cons text texts ih =>
    rw [processBlock] at h
    split at h
    · cases h
    · rcases hprocess : s.processVar slot bl var text with ⟨_ | _, s₁⟩
      · rw [hprocess] at h
        cases h
      · rw [hprocess] at h
        obtain ⟨e, he⟩ := parse_of_processVar hprocess
        obtain ⟨b, hb⟩ := ih h
        refine ⟨e :: b, ?_⟩
        rw [List.mapM_cons, he, hb]
        rfl

/-- The first of the texts, and the others. -/
theorem mapM_cons {α β : Type} {f : α → Option β} {x : α} {xs : List α} {ys : List β} (h : (x :: xs).mapM f = some ys) :
    ∃ y ys', f x = some y ∧ xs.mapM f = some ys' ∧ ys = y :: ys' := by
  rw [List.mapM_cons] at h
  obtain ⟨y, hy, h⟩ := Option.bind_eq_some_iff.1 h
  obtain ⟨ys', hys, h⟩ := Option.bind_eq_some_iff.1 h
  exact ⟨y, ys', hy, hys, (Option.some.inj h).symm⟩

/-- **The assignments of a block.** -/
theorem processBlock_done (texts : List (List Byte)) : ∀ {s : State} {var : Nat} {b : Block}, s.Fine → (∀ text ∈ texts, (0 : Byte) ∉ text) →
    texts.mapM parseVar = some b → (∀ v e, b[v]? = some e → ¬ s.Shares slot bl (var + v) e (b.take v)) →
    s.processBlock slot bl var texts = (none, s') → Processed s s' slot bl var b := by
  induction texts with
  | nil =>
    intro s var b h _ hparse _ hdone
    obtain rfl := Option.some.inj hparse
    obtain ⟨-, rfl⟩ := Prod.mk.inj hdone
    exact .nil h slot bl var
  | cons text texts ih =>
    intro s var b h htexts hparse hclean hdone
    obtain ⟨e, b, he, hb, rfl⟩ := mapM_cons hparse
    rw [processBlock] at hdone
    split at hdone
    · cases hdone
    · rcases hprocess : s.processVar slot bl var text with ⟨_ | _, s₁⟩
      · rw [hprocess] at hdone
        cases hdone
      · rw [hprocess] at hdone
        have hone := processVar_done h (htexts text List.mem_cons_self) he (hclean 0 e rfl) hprocess
        refine hone.cons (ih hone.fine (fun t ht => htexts t (List.mem_cons_of_mem _ ht)) hb (fun v d hd hshares => ?_) hdone)
        have hbefore := hone.shares (fun _ _ => .inr (by rw [List.length_singleton]; omega)) hshares
        rw [Nat.add_assoc, Nat.add_comm 1 v] at hbefore
        exact hclean (v + 1) d hd hbefore

/-! ## Definitions -/

/-- The assignments of a block that is well formed. -/
def parseBlock (body : List Byte) : Option Block := (splitVars [] body).mapM parseVar

/-- The blocks of a definition that is well formed. -/
def parseBlocks (texts : List (Option (List Byte))) : Option (List Block) := texts.mapM fun text => text.bind parseBlock

/-- No block had more assignments before, and no entry has a value for another variable. -/
structure Clean (s : State) (slot bl : Nat) (B : List Block) : Prop where
  counted : ∀ j b, B[j]? = some b → ((s.toggleData slot).block (bl + j)).nrVars ≤ b.length
  shares : ∀ j b v e, B[j]? = some b → b[v]? = some e → ¬ s.Shares slot (bl + j) v e ((B.take j).flatten ++ b.take v)

/-- Blocks of a slot have been defined, from number `bl` on. -/
structure Defined (s s' : State) (slot bl : Nat) (B : List Block) : Prop where
  fine : s'.Fine
  get : ∀ n, (∀ b ∈ B, ∀ e ∈ b, e.1 ≠ n) → s'.get n = s.get n
  used : s'.togglesUsed = s.togglesUsed
  key : (s'.toggleData slot).key = (s.toggleData slot).key
  currentBlock : (s'.toggleData slot).currentBlock = (s.toggleData slot).currentBlock
  nrBlocks : (s'.toggleData slot).nrBlocks = bl + B.length
  blocks : ∀ j b, B[j]? = some b → s'.HasBlock slot (bl + j) b
  keeps : ∀ bl' b, bl' < bl → s.HasBlock slot bl' b → s'.HasBlock slot bl' b
  shape : ∀ slot', slot' ≠ slot → SameShape (s.toggleData slot') (s'.toggleData slot')
  others : ∀ slot' bl' b, slot' ≠ slot → s.HasBlock slot' bl' b → s'.HasBlock slot' bl' b

/-- A block that has been processed as a whole. -/
theorem Processed.hasBlock (h : Processed s s' slot bl 0 b) (hstale : ((s.toggleData slot).block bl).nrVars ≤ b.length) :
    s'.HasBlock slot bl b := by
  refine ⟨?_, fun v e he => ?_⟩
  · rw [h.counted.nrVars]
    split
    next hnil =>
      rw [hnil] at hstale ⊢
      exact (Nat.max_zero _).trans (Nat.le_zero.1 hstale)
    next =>
      rw [Nat.zero_add]
      exact Nat.max_eq_right hstale
  · have hassigns := h.assigns v e he
    rwa [Nat.zero_add] at hassigns

theorem Processed.keeps_block {b' : Block} {slot' bl' : Nat} (h : Processed s s' slot bl var b) (hother : slot' = slot → bl' ≠ bl)
    (hblock : s.HasBlock slot' bl' b') : s'.HasBlock slot' bl' b' := by
  refine ⟨?_, fun v e he => h.keeps slot' bl' v e.1 e.2 (fun hslot hbl => absurd hbl (hother hslot)) (hblock.assigns v e he)⟩
  rw [← hblock.nrVars]
  by_cases hslot : slot' = slot
  · subst hslot
    exact h.counted.nrVarsOther bl' (hother rfl)
  · exact (h.counted.shape slot' hslot).nrVars bl'

/-- A change of a slot that leaves its entries. -/
theorem Fine.withToggle (h : s.Fine) {t : Toggle} (hvalues : ∀ bl var, ((t.block bl).var var).value = (s.entry slot bl var).value) :
    (s.withToggle slot t).Fine := by
  refine ⟨?_, h.valued⟩
  have hentries : (s.withToggle slot t).Entries = s.Entries := by
    unfold Entries
    simp only [s.withToggle_entry t hvalues]
  rw [hentries]
  exact h.inv

/-- The number of blocks is set. -/
theorem Defined.nil (h : s.Fine) (slot bl : Nat) : Defined s (s.withToggle slot { s.toggleData slot with nrBlocks := bl }) slot bl [] := by
  have hself := s.withToggle_self slot { s.toggleData slot with nrBlocks := bl }
  refine ⟨h.withToggle fun _ _ => rfl, fun _ _ => rfl, rfl, ?_, ?_, ?_, fun j b hb => (nomatch hb), fun bl' b _ hblock => ?_,
    fun slot' hslot => ?_,
    fun slot' bl' b hslot hblock => ?_⟩
  · rw [hself]
  · rw [hself]
  · rw [hself]
    rfl
  · refine ⟨?_, fun v e he => (hblock.assigns v e he).frame ⟨fun _ _ hn => hn, fun _ _ => rfl⟩ ?_⟩
    · rw [hself]
      exact hblock.nrVars
    · unfold entry
      rw [hself]
  · rw [s.withToggle_other _ hslot]
    exact ⟨rfl, rfl, rfl, fun _ => rfl⟩
  · exact hblock.frame ⟨fun _ _ hn => hn, fun _ _ => rfl⟩ (.of_eq (s.withToggle_other _ hslot))

/-- The first block, and the others. -/
theorem Processed.defined {B : List Block} (h : Processed s s₁ slot bl 0 b) (hstale : ((s.toggleData slot).block bl).nrVars ≤ b.length)
    (h' : Defined s₁ s' slot (bl + 1) B) : Defined s s' slot bl (b :: B) where
  fine := h'.fine
  get n hn := (h'.get n fun b' hb => hn b' (List.mem_cons_of_mem _ hb)).trans (h.get n (hn b List.mem_cons_self))
  used := h'.used.trans h.counted.used
  key := h'.key.trans h.counted.key
  currentBlock := h'.currentBlock.trans h.counted.currentBlock
  nrBlocks := by rw [h'.nrBlocks, List.length_cons, Nat.add_assoc, Nat.add_comm 1]
  blocks j b' hb := by
    cases j with
    | zero =>
      cases hb
      exact h'.keeps bl b (Nat.lt_succ_self bl) (h.hasBlock hstale)
    | succ j =>
      have hblock := h'.blocks j b' hb
      rwa [Nat.add_assoc, Nat.add_comm 1 j] at hblock
  keeps bl' b' hbl hblock := h'.keeps bl' b' (Nat.lt_succ_of_lt hbl) (h.keeps_block (fun _ => Nat.ne_of_lt hbl) hblock)
  shape slot' hslot := by
    have hfirst := h.counted.shape slot' hslot
    have hrest := h'.shape slot' hslot
    exact ⟨hrest.key.trans hfirst.key, hrest.currentBlock.trans hfirst.currentBlock, hrest.nrBlocks.trans hfirst.nrBlocks,
      fun bl' => (hrest.nrVars bl').trans (hfirst.nrVars bl')⟩
  others slot' bl' b' hslot hblock := h'.others slot' bl' b' hslot (h.keeps_block (fun hsame => absurd hsame hslot) hblock)

/-- The rest of a definition is clean, when its first block has been processed. -/
theorem Clean.tail {B : List Block} (h : Clean s slot bl (b :: B)) (hone : Processed s s₁ slot bl 0 b) : Clean s₁ slot (bl + 1) B where
  counted j b' hb := by
    have hcounted := h.counted (j + 1) b' hb
    rw [← Nat.add_assoc, Nat.add_right_comm] at hcounted
    rw [hone.counted.nrVarsOther _ (by omega)]
    exact hcounted
  shares j b' v e hb he hshares := by
    have hbefore := hone.shares (fun _ hbl => absurd hbl (by omega)) hshares
    rw [Nat.add_assoc, Nat.add_comm 1 j, ← List.append_assoc] at hbefore
    exact h.shares (j + 1) b' v e hb he hbefore

/-- **The blocks of a definition that is accepted.** -/
theorem processBlocks_done (texts : List (Option (List Byte))) : ∀ {s : State} {bl : Nat} {B : List Block}, s.Fine →
    (∀ body, some body ∈ texts → (0 : Byte) ∉ body) → parseBlocks texts = some B → s.Clean slot bl B →
      s.processBlocks slot bl texts = (none, s') →
    Defined s s' slot bl B := by
  induction texts with
  | nil =>
    intro s bl B h _ hparse _ hdone
    obtain rfl := Option.some.inj hparse
    obtain ⟨-, rfl⟩ := Prod.mk.inj hdone
    exact .nil h slot bl
  | cons text texts ih =>
    intro s bl B h htexts hparse hclean hdone
    obtain ⟨b, B, hb, hB, rfl⟩ := mapM_cons hparse
    cases text with
    | none => cases hdone
    | some body =>
      rw [processBlocks] at hdone
      rcases hprocess : s.processBlock slot bl 0 (splitVars [] body) with ⟨_ | _, s₁⟩
      · rw [hprocess] at hdone
        dsimp only at hdone
        split at hdone
        · cases hdone
        · have hchars := splitVars_chars [] body List.not_mem_nil (htexts body List.mem_cons_self)
          have hone :=
            processBlock_done _ h hchars hb (fun v e he hshares => hclean.shares 0 b v e rfl he (by rwa [Nat.zero_add] at hshares)) hprocess
          exact hone.defined (hclean.counted 0 b rfl)
            (ih hone.fine (fun t ht => htexts t (List.mem_cons_of_mem _ ht)) hB (hclean.tail hone) hdone)
      · rw [hprocess] at hdone
        cases hdone

/-- A definition that is accepted is well formed. -/
theorem parse_of_processBlocks (texts : List (Option (List Byte))) (h : s.processBlocks slot bl texts = (none, s')) :
    ∃ B, parseBlocks texts = some B ∧ B.length = texts.length := by
  induction texts generalizing s bl with
  | nil => exact ⟨[], rfl, rfl⟩
  | cons text texts ih =>
    cases text with
    | none => cases h
    | some body =>
      rw [processBlocks] at h
      rcases hprocess : s.processBlock slot bl 0 (splitVars [] body) with ⟨_ | _, s₁⟩
      · rw [hprocess] at h
        dsimp only at h
        split at h
        · cases h
        · obtain ⟨b, hb⟩ := parse_of_processBlock _ hprocess
          obtain ⟨B, hB, hlen⟩ := ih h
          refine ⟨b :: B, ?_, congrArg (· + 1) hlen⟩
          unfold parseBlocks at hB ⊢
          rw [List.mapM_cons, hB]
          show (parseBlock body).bind _ = _
          rw [parseBlock, hb]
          rfl
      · rw [hprocess] at h
        cases h

end State

end TrustedGrub.Builtins
