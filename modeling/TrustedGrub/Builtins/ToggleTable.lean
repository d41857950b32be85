import TrustedGrub.Builtins.ToggleRefused

/-!
# The table of the toggles

Every slot in use holds a toggle that goes round its blocks, or one without blocks. Keys that are pressed,
blocks that are selected and definitions keep it so, and the toggles of other keys stay.
-/

namespace TrustedGrub.Builtins
open Fips180 (Byte)
open Disk (GrubError safeParseMaxint)

namespace State
variable {s s₁ s' : State} {slot slot' : Nat} {key : Int} {b : Block} {B : List Block} {c : Nat} {but : Option Nat}

/-! ## Slots -/

/-- The slot holds the blocks, and number `c` of them has been done last. -/
structure Cycles (s : State) (slot : Nat) (B : List Block) (c : Nat) : Prop where
  nrBlocks : (s.toggleData slot).nrBlocks = B.length
  currentBlock : (s.toggleData slot).currentBlock = c
  bound : B ≠ [] → c < B.length
  blocks : ∀ j b, B[j]? = some b → s.HasBlock slot j b

/-- The slots in use hold toggles, and the others have no key. -/
structure Tidy (s : State) : Prop where
  fine : s.Fine
  used : s.togglesUsed ≤ maxToggles
  unused : ∀ slot, s.togglesUsed ≤ slot → (s.toggleData slot).key = 0 ∧ (s.toggleData slot).nrBlocks = 0
  cycles : ∀ slot, slot < s.togglesUsed → ∃ B c, s.Cycles slot B c

/-- The toggle of the key. -/
def Defines (s : State) (key : Int) (B : List Block) (c : Nat) : Prop := B ≠ [] ∧ ∃ slot, s.findSlot key = some slot ∧ s.Cycles slot B c

theorem Cycles.frame (h : s.Cycles slot B c) (hframe : Frame s s') (hslot : SameSlot s s' slot) : s'.Cycles slot B c :=
  ⟨hslot.shape.nrBlocks.trans h.nrBlocks, hslot.shape.currentBlock.trans h.currentBlock, h.bound,
    fun j b hb => (h.blocks j b hb).frame hframe hslot⟩

theorem findSlot_some (h : s.findSlot key = some slot) : slot < s.togglesUsed ∧ (s.toggleData slot).key = key := by
  refine ⟨List.mem_range.1 (List.mem_of_find?_eq_some h), ?_⟩
  have hkey := List.find?_some h
  exact of_decide_eq_true hkey

theorem findSlot_congr (hused : s'.togglesUsed = s.togglesUsed) (hkeys : ∀ slot, (s'.toggleData slot).key = (s.toggleData slot).key)
    (key : Int) :
    s'.findSlot key = s.findSlot key := by
  unfold findSlot
  rw [hused]
  simp only [hkeys]

/-- The keys stay, and the toggles of all slots but one. -/
structure Others (s s' : State) (but : Option Nat) : Prop where
  fine : s'.Fine
  used : s'.togglesUsed = s.togglesUsed
  keys : ∀ slot, (s'.toggleData slot).key = (s.toggleData slot).key
  unused : ∀ slot, s.togglesUsed ≤ slot → (s'.toggleData slot).nrBlocks = (s.toggleData slot).nrBlocks
  cycles : ∀ slot B c, some slot ≠ but → s.Cycles slot B c → s'.Cycles slot B c

theorem Others.find (h : Others s s' but) (key : Int) : s'.findSlot key = s.findSlot key := findSlot_congr h.used h.keys key

theorem Others.tidy (h : Others s s' but) (htidy : s.Tidy) (hcycles : ∀ slot, some slot = but → ∃ B c, s'.Cycles slot B c) : s'.Tidy where
  fine := h.fine
  used := h.used.le.trans htidy.used
  unused slot hslot := by
    rw [h.used] at hslot
    rw [h.keys, h.unused slot hslot]
    exact htidy.unused slot hslot
  cycles slot hslot := by
    rw [h.used] at hslot
    by_cases hbut : some slot = but
    · exact hcycles slot hbut
    · obtain ⟨B, c, hB⟩ := htidy.cycles slot hslot
      exact ⟨B, c, h.cycles slot B c hbut hB⟩

/-- The toggles of the other keys stay. -/
theorem Others.defines (h : Others s s' but) (hbut : s.findSlot key = none ∨ s.findSlot key ≠ but) (hkey : s.Defines key B c) :
    s'.Defines key B c := by
  obtain ⟨hne, slot, hslot, hcycles⟩ := hkey
  rw [hslot] at hbut
  exact ⟨hne, slot, (h.find key).trans hslot, h.cycles slot B c (hbut.resolve_left (Option.some_ne_none _)) hcycles⟩

theorem Others.trans (h : Others s s₁ but) (h' : Others s₁ s' but) : Others s s' but where
  fine := h'.fine
  used := h'.used.trans h.used
  keys slot := (h'.keys slot).trans (h.keys slot)
  unused slot hslot := (h'.unused slot (h.used.le.trans hslot)).trans (h.unused slot hslot)
  cycles slot B c hbut hB := h'.cycles slot B c hbut (h.cycles slot B c hbut hB)

/-- Only the variables change, and no string of a block. -/
theorem Others.of_frame (hfine : s'.Fine) (hframe : Frame s s') (hused : s'.togglesUsed = s.togglesUsed)
    (htoggles : s'.toggleData = s.toggleData)
    (but : Option Nat) : Others s s' but where
  fine := hfine
  used := hused
  keys slot := by rw [htoggles]
  unused slot _ := by rw [htoggles]
  cycles slot B c _ hB := hB.frame hframe (.of_eq (congrFun htoggles slot))

theorem Done.others (h : Done s s' b) (but : Option Nat) : Others s s' but := .of_frame h.fine h.frame h.used h.toggles but

theorem Done.cycles (h : Done s s' b) (hB : s.Cycles slot B c) : s'.Cycles slot B c := hB.frame h.frame (.of_eq (congrFun h.toggles slot))

theorem setCurrent_frame (s : State) (slot bl : Nat) : Frame s (s.setCurrent slot bl) := ⟨fun _ _ hn => hn, fun _ _ => rfl⟩

theorem setCurrent_others (h : s.Fine) (slot bl : Nat) : Others s (s.setCurrent slot bl) (some slot) := by
  refine ⟨h.withToggle fun _ _ => rfl, rfl, fun slot' => ?_, fun slot' _ => ?_, fun slot' B c hslot hB => ?_⟩
  · unfold setCurrent
    by_cases hslot : slot' = slot
    · rw [hslot, withToggle_self]
    · rw [withToggle_other _ _ hslot]
  · unfold setCurrent
    by_cases hslot : slot' = slot
    · rw [hslot, withToggle_self]
    · rw [withToggle_other _ _ hslot]
  · exact hB.frame (s.setCurrent_frame slot bl) (.of_eq (s.withToggle_other _ fun hsame => hslot (congrArg some hsame)))

theorem setCurrent_cycles (h : s.Cycles slot B c) (bl : Nat) (hbl : B ≠ [] → bl < B.length) : (s.setCurrent slot bl).Cycles slot B bl := by
  have hself : (s.setCurrent slot bl).toggleData slot = { s.toggleData slot with currentBlock := bl } := s.withToggle_self _ _
  refine ⟨?_, ?_, hbl, fun j b hb => ⟨?_, fun v e he => ((h.blocks j b hb).assigns v e he).frame (s.setCurrent_frame slot bl) ?_⟩⟩
  · rw [hself]
    exact h.nrBlocks
  · rw [hself]
  · rw [hself]
    exact (h.blocks j b hb).nrVars
  · unfold entry
    rw [hself]

/-! ## Keys -/

/-- The number of the next block. -/
theorem next_block (hc : c < B.length) : (if c + 1 = B.length then 0 else c + 1) = (c + 1) % B.length := by
  split
  next hlast => rw [hlast, Nat.mod_self]
  next hlast => exact (Nat.mod_eq_of_lt (by omega)).symm

/-- **The key of a toggle**: the next block is done. -/
theorem doKey_done (h : s.Tidy) (hkey : s.Defines key B c) :
    ∃ s' b, s.doKey key = some (true, s') ∧ B[(c + 1) % B.length]? = some b ∧ s'.get = assigned b s.get ∧
      s'.Defines key B ((c + 1) % B.length) ∧
      s'.Tidy ∧ Others s s' (s.findSlot key) := by
  obtain ⟨hne, slot, hslot, hB⟩ := hkey
  have hlt : (c + 1) % B.length < B.length := Nat.mod_lt _ (List.length_pos_iff.2 hne)
  have hb : B[(c + 1) % B.length]? = some B[(c + 1) % B.length] := List.getElem?_eq_getElem hlt
  have hcurrent := setCurrent_cycles hB ((c + 1) % B.length) fun _ => hlt
  have hfirst := setCurrent_others h.fine slot ((c + 1) % B.length)
  have hbl : (c + 1) % B.length < ((s.setCurrent slot ((c + 1) % B.length)).toggleData slot).nrBlocks := by
    rw [hcurrent.nrBlocks]
    exact hlt
  obtain ⟨s', hblock, hdone⟩ := doBlock_done hfirst.fine (findSlot_some hslot).1 hbl (hcurrent.blocks _ _ hb)
  have hothers : Others s s' (some slot) := hfirst.trans (hdone.others _)
  refine ⟨s', _, ?_, hb, funext hdone.get, ⟨hne, slot, (hothers.find key).trans hslot, hdone.cycles hcurrent⟩, ?_, ?_⟩
  · rw [doKey, hslot]
    dsimp only
    rw [hB.currentBlock, hB.nrBlocks, next_block (hB.bound hne), hblock]
    rfl
  · refine hothers.tidy h fun slot' hslot' => ?_
    obtain rfl := Option.some.inj hslot'
    exact ⟨B, _, hdone.cycles hcurrent⟩
  · rw [hslot]
    exact hothers

/-- **Any key.** -/
theorem doKey_tidy (h : s.Tidy) {ok : Bool} (hpress : s.doKey key = some (ok, s')) : s'.Tidy ∧ Others s s' (s.findSlot key) := by
  cases hslot : s.findSlot key with
  | none =>
    rw [doKey, hslot] at hpress
    obtain ⟨-, rfl⟩ := Prod.mk.inj (Option.some.inj hpress)
    exact ⟨h, .of_frame h.fine (.refl s) rfl rfl none⟩
  | some slot =>
    obtain ⟨B, c, hB⟩ := h.cycles slot (findSlot_some hslot).1
    by_cases hne : B = []
    · -- There is no block to go to, and only the number goes up.
      subst hne
      have hzero : (s.toggleData slot).nrBlocks = 0 := hB.nrBlocks
      have hothers := setCurrent_others h.fine slot (c + 1)
      have hcurrent := setCurrent_cycles hB (c + 1) fun hne => absurd rfl hne
      have hrefused : (s.setCurrent slot (c + 1)).doBlock slot (c + 1) = some (false, s.setCurrent slot (c + 1)) := by
        rw [doBlock, if_pos (.inr (by rw [hcurrent.nrBlocks]; exact Nat.zero_le _))]
      rw [doKey, hslot] at hpress
      dsimp only at hpress
      rw [hB.currentBlock, hzero, if_neg (Nat.succ_ne_zero c), hrefused] at hpress
      obtain ⟨-, rfl⟩ := Prod.mk.inj (Option.some.inj hpress)
      refine ⟨hothers.tidy h fun slot' hslot' => ?_, hothers⟩
      obtain rfl := Option.some.inj hslot'
      exact ⟨[], _, hcurrent⟩
    · obtain ⟨s₁, b, hdone, -, -, -, htidy, hothers⟩ := doKey_done h ⟨hne, slot, hslot, hB⟩
      rw [hdone] at hpress
      obtain ⟨-, rfl⟩ := Prod.mk.inj (Option.some.inj hpress)
      rw [hslot] at hothers
      exact ⟨htidy, hothers⟩

/-! ## Blocks that are selected -/

/-- The selection of a block is refused. -/
def Refuses (s : State) (k : Byte) (text : List Byte) : Prop :=
  ∀ b rest slot, text.head? = some 0x3D → safeParseMaxint text.tail = .ok (b, rest) → s.findSlot k.toInt = some slot →
    (s.toggleData slot).nrBlocks ≤ b

/-- A selection that is accepted. -/
theorem selectOne_done (h : s.Tidy) {k : Byte} {text rest : List Byte} (hdone : s.selectOne k text = some (some rest, s')) :
    (∃ bl, safeParseMaxint text.tail = .ok (bl, rest)) ∧ ¬ s.Refuses k text ∧ s'.Tidy ∧ Others s s' (s.findSlot k.toInt) := by
  unfold selectOne at hdone
  split at hdone
  · cases hdone
  next hhead =>
    cases hparse : safeParseMaxint text.tail with
    | error err =>
      rw [hparse] at hdone
      cases hdone
    | ok r =>
      obtain ⟨bl, rest'⟩ := r
      cases hslot : s.findSlot k.toInt with
      | none =>
        rw [hparse, hslot] at hdone
        cases hdone
      | some slot =>
        rw [hparse, hslot] at hdone
        dsimp only at hdone
        have hused := (findSlot_some hslot).1
        obtain ⟨B, c, hB⟩ := h.cycles slot hused
        by_cases hbl : bl < (s.toggleData slot).nrBlocks
        · rw [hB.nrBlocks] at hbl
          have hb : B[bl]? = some B[bl] := List.getElem?_eq_getElem hbl
          obtain ⟨s₁, hblock, hset⟩ := doBlock_done h.fine hused (by rw [hB.nrBlocks]; exact hbl) (hB.blocks bl _ hb)
          rw [hblock] at hdone
          obtain ⟨hrest, rfl⟩ := Prod.mk.inj (Option.some.inj hdone)
          obtain rfl := Option.some.inj hrest
          have hcurrent := setCurrent_cycles (hset.cycles hB) bl fun _ => hbl
          have hothers : Others s (s₁.setCurrent slot bl) (some slot) := (hset.others _).trans (setCurrent_others hset.fine slot bl)
          refine ⟨⟨bl, rfl⟩, fun hrefuses => ?_, hothers.tidy h fun slot' hslot' => ?_, hothers⟩
          · have hle := hrefuses bl rest' slot (not_not.1 hhead) hparse hslot
            rw [hB.nrBlocks] at hle
            omega
          · obtain rfl := Option.some.inj hslot'
            exact ⟨B, bl, hcurrent⟩
        · rw [doBlock, if_pos (.inr (by omega))] at hdone
          cases hdone

/-- A selection that is refused leaves everything. -/
theorem selectOne_refused {k : Byte} {text : List Byte} (hrefused : s.selectOne k text = some (none, s')) : s' = s := by
  unfold selectOne at hrefused
  split at hrefused
  · exact (Prod.mk.inj (Option.some.inj hrefused)).2.symm
  · split at hrefused
    next slot _ hslot =>
      split at hrefused
      · cases hrefused
      next hblock =>
        obtain ⟨-, rfl⟩ := Prod.mk.inj (Option.some.inj hrefused)
        unfold doBlock at hblock
        split at hblock
        · exact (Prod.mk.inj (Option.some.inj hblock)).2.symm
        · obtain ⟨s₁, -, hsame⟩ := Option.map_eq_some_iff.1 hblock
          cases hsame
      · cases hrefused
    · exact (Prod.mk.inj (Option.some.inj hrefused)).2.symm

/-! ## Definitions -/

/-- The slot has been taken for the key and reset. -/
structure Ready (s s' : State) (key : Int) (slot : Nat) : Prop where
  vars : s'.toVars = s.toVars
  entry : ∀ slot' bl var, s'.entry slot' bl var = s.entry slot' bl var
  tidyUsed : s'.togglesUsed ≤ maxToggles
  slotUsed : slot < s'.togglesUsed
  mono : ∀ slot', slot' ≠ slot → slot' < s'.togglesUsed → slot' < s.togglesUsed
  unused : ∀ slot', s'.togglesUsed ≤ slot' → slot' ≠ slot ∧ s.togglesUsed ≤ slot'
  find : s'.findSlot key = some slot
  findOther : ∀ key', key' ≠ key → s'.findSlot key' = s.findSlot key'
  findBefore : ∀ key', s.findSlot key' = some slot → key' = key
  findSame : ∀ slot', s.findSlot key = some slot' → slot' = slot
  currentBlock : (s'.toggleData slot).currentBlock = 0
  nrBlocks : (s'.toggleData slot).nrBlocks = 0
  nrVars : ∀ bl, ((s'.toggleData slot).block bl).nrVars = if bl < maxVarPerBlock then 0 else ((s.toggleData slot).block bl).nrVars
  others : ∀ slot', slot' ≠ slot → s'.toggleData slot' = s.toggleData slot'

/-- The slots without a key do not count. -/
theorem Tidy.getSlotForKey (h : s.Tidy) (hkey : key ≠ 0) : s.getSlotForKey key = s.findSlot key := by
  unfold State.getSlotForKey findSlot
  obtain ⟨n, hn⟩ : ∃ n, maxToggles = s.togglesUsed + n := ⟨maxToggles - s.togglesUsed, (Nat.add_sub_cancel' h.used).symm⟩
  rw [hn, List.range_add, List.find?_append]
  have hnone : (List.map (fun x => s.togglesUsed + x) (List.range n)).find? (fun i => decide ((s.toggleData i).key = key)) = none := by
    refine List.find?_eq_none.2 fun i hi hsame => ?_
    obtain ⟨j, -, rfl⟩ := List.mem_map.1 hi
    rw [decide_eq_true_iff, (h.unused _ (Nat.le_add_right _ j)).1] at hsame
    exact hkey hsame.symm
  rw [hnone, Option.or_none]

theorem resetSlot_other (s : State) {slot' : Nat} (hne : slot' ≠ slot) : (s.resetSlot slot).toggleData slot' = s.toggleData slot' :=
  s.withToggle_other _ hne

theorem resetSlot_self (s : State) (slot : Nat) : (s.resetSlot slot).toggleData slot =
    { s.toggleData slot with
      nrBlocks := 0, currentBlock := 0,
      block := fun i => if i < maxVarPerBlock then { (s.toggleData slot).block i with nrVars := 0 } else (s.toggleData slot).block i } :=
  s.withToggle_self _ _

theorem resetSlot_key (s : State) (slot slot' : Nat) : ((s.resetSlot slot).toggleData slot').key = (s.toggleData slot').key := by
  by_cases hslot : slot' = slot
  · rw [hslot, resetSlot_self]
  · rw [resetSlot_other s hslot]

theorem resetSlot_entry (s : State) (slot slot' bl var : Nat) : (s.resetSlot slot).entry slot' bl var = s.entry slot' bl var := by
  unfold entry
  by_cases hslot : slot' = slot
  · rw [hslot, resetSlot_self]
    dsimp only
    split <;> rfl
  · rw [resetSlot_other s hslot]

theorem resetSlot_nrVars (s : State) (slot bl : Nat) :
    (((s.resetSlot slot).toggleData slot).block bl).nrVars = if bl < maxVarPerBlock then 0 else ((s.toggleData slot).block bl).nrVars := by
  rw [resetSlot_self]
  dsimp only
  split <;> rfl

/-- **The slot of a definition.** -/
theorem Tidy.ready (h : s.Tidy) (hkey : key ≠ 0) (htake : s.takeSlot key = some (slot, s₁)) : Ready s (s₁.resetSlot slot) key slot := by
  unfold takeSlot at htake
  rw [h.getSlotForKey hkey] at htake
  cases hslot : s.findSlot key with
  | some slot' =>
    rw [hslot] at htake
    obtain ⟨rfl, rfl⟩ := Prod.mk.inj (Option.some.inj htake)
    obtain ⟨hused, hsame⟩ := findSlot_some hslot
    have hfind : ∀ key', (s.resetSlot slot').findSlot key' = s.findSlot key' := findSlot_congr rfl (s.resetSlot_key slot')
    refine ⟨rfl, s.resetSlot_entry slot', h.used, hused, fun _ _ hlt => hlt, fun slot'' hle => ⟨fun heq => ?_, hle⟩,
      (hfind key).trans hslot,
      fun key' _ => hfind key', fun key' hkey' => ?_, fun _ hsame' => Option.some.inj (hsame'.symm.trans hslot), ?_, ?_,
        s.resetSlot_nrVars slot', fun _ hne => s.resetSlot_other hne⟩
    · rw [heq] at hle
      exact absurd hused (Nat.not_lt.2 hle)
    · exact (findSlot_some hkey').2.symm.trans hsame
    · rw [resetSlot_self]
    · rw [resetSlot_self]
  | none =>
    rw [hslot] at htake
    dsimp only at htake
    split at htake
    · cases htake
    next hfree =>
      obtain ⟨rfl, rfl⟩ := Prod.mk.inj (Option.some.inj htake)
      generalize hnew :
          ({ s.withToggle s.togglesUsed { s.toggleData s.togglesUsed with key } with togglesUsed := s.togglesUsed + 1 } : State) = s₂
      have hself : s₂.toggleData s.togglesUsed = { s.toggleData s.togglesUsed with key } := by
        rw [← hnew]
        exact s.withToggle_self _ _
      have hother : ∀ slot', slot' ≠ s.togglesUsed → s₂.toggleData slot' = s.toggleData slot' := fun slot' hne => by
        rw [← hnew]
        exact s.withToggle_other _ hne
      have hvars : s₂.toVars = s.toVars := by rw [← hnew]; rfl
      have hused : s₂.togglesUsed = s.togglesUsed + 1 := by rw [← hnew]
      have hentry : ∀ slot' bl var, s₂.entry slot' bl var = s.entry slot' bl var := by
        intro slot' bl var
        unfold entry
        by_cases hsame : slot' = s.togglesUsed
        · rw [hsame, hself]
        · rw [hother slot' hsame]
      have hfind (key' : Int) :
          (s₂.resetSlot s.togglesUsed).findSlot key' = (s.findSlot key').or (if key = key' then some s.togglesUsed else none) := by
        unfold findSlot
        simp only [resetSlot_key]
        show (List.range s₂.togglesUsed).find? _ = _
        rw [hused, List.range_succ, List.find?_append, List.find?_singleton]
        congr 1
        · refine List.find?_congr fun i hi => ?_
          rw [hother i (Nat.ne_of_lt (List.mem_range.1 hi))]
        · rw [hself]
          simp only [decide_eq_true_iff]
      refine ⟨hvars, fun slot' bl var => (s₂.resetSlot_entry _ slot' bl var).trans (hentry slot' bl var), ?_, ?_, fun slot' hne hlt => ?_,
        fun slot' hle => ?_, ?_,
        fun key' hne => ?_, fun key' hkey' => ?_, fun _ hsome => absurd (hslot.symm.trans hsome) (Option.some_ne_none _).symm, ?_, ?_,
          fun bl => ?_, fun slot' hne => (s₂.resetSlot_other hne).trans (hother slot' hne)⟩
      · have hle := h.used
        show s₂.togglesUsed ≤ _
        omega
      · show s.togglesUsed < s₂.togglesUsed
        omega
      · have hlt' : slot' < s₂.togglesUsed := hlt
        omega
      · have hle' : s₂.togglesUsed ≤ slot' := hle
        omega
      · rw [hfind, hslot, if_pos rfl]
        rfl
      · rw [hfind, if_neg hne.symm, Option.or_none]
      · exact absurd (findSlot_some hkey').1 (Nat.lt_irrefl _)
      · rw [resetSlot_self]
      · rw [resetSlot_self]
      · rw [resetSlot_nrVars, hself]

theorem Ready.frame (h : Ready s s' key slot) : Frame s s' := by
  refine ⟨fun i n hn => ?_, fun p _ => ?_⟩
  · rw [h.vars]
    exact hn
  · rw [h.vars]

theorem Ready.fine (h : Ready s s' key slot) (hfine : s.Fine) : s'.Fine := by
  have hentries : s'.Entries = s.Entries := by
    unfold Entries
    simp only [h.entry]
  refine ⟨?_, ?_⟩
  · rw [h.vars, hentries]
    exact hfine.inv
  · rw [h.vars]
    exact hfine.valued

theorem Ready.cycles (h : Ready s s' key slot) (hslot : slot' ≠ slot) (hB : s.Cycles slot' B c) : s'.Cycles slot' B c :=
  hB.frame h.frame (.of_eq (h.others slot' hslot))

/-- The keys stay, and what the other slots hold. -/
structure Beside (s s' : State) (slot : Nat) : Prop where
  used : s'.togglesUsed = s.togglesUsed
  key : (s'.toggleData slot).key = (s.toggleData slot).key
  shape : ∀ slot', slot' ≠ slot → SameShape (s.toggleData slot') (s'.toggleData slot')
  others : ∀ slot' bl' b, slot' ≠ slot → s.HasBlock slot' bl' b → s'.HasBlock slot' bl' b

theorem Defined.beside {bl : Nat} (h : Defined s s' slot bl B) : Beside s s' slot := ⟨h.used, h.key, h.shape, h.others⟩

theorem Idle.beside (h : Idle s s' slot) : Beside s s' slot := ⟨h.used, h.key, h.shape, h.others⟩

theorem Done.beside (h : Done s s' b) (slot : Nat) : Beside s s' slot where
  used := h.used
  key := by rw [h.toggles]
  shape slot' _ := by
    rw [h.toggles]
    exact ⟨rfl, rfl, rfl, fun _ => rfl⟩
  others slot' _ _ _ hblock := hblock.frame h.frame (.of_eq (congrFun h.toggles slot'))

theorem Beside.trans (h : Beside s s₁ slot) (h' : Beside s₁ s' slot) : Beside s s' slot :=
  ⟨h'.used.trans h.used, h'.key.trans h.key, fun slot' hslot => (h.shape slot' hslot).trans (h'.shape slot' hslot),
    fun slot' bl' b hslot hblock => h'.others slot' bl' b hslot (h.others slot' bl' b hslot hblock)⟩

theorem Beside.keys (h : Beside s s' slot) (slot' : Nat) : (s'.toggleData slot').key = (s.toggleData slot').key := by
  by_cases hslot : slot' = slot
  · rw [hslot, h.key]
  · exact (h.shape slot' hslot).key

theorem Beside.cycles (h : Beside s s' slot) (hslot : slot' ≠ slot) (hB : s.Cycles slot' B c) : s'.Cycles slot' B c :=
  ⟨(h.shape slot' hslot).nrBlocks.trans hB.nrBlocks, (h.shape slot' hslot).currentBlock.trans hB.currentBlock, hB.bound,
    fun j b hb => h.others slot' j b hslot (hB.blocks j b hb)⟩

/-- The table is in order again, when the slot holds blocks. -/
theorem Ready.tidy (h : Ready s s₁ key slot) (htidy : s.Tidy) (hbeside : Beside s₁ s' slot) (hfine : s'.Fine) (hB : s'.Cycles slot B c) :
    s'.Tidy where
  fine := hfine
  used := hbeside.used.le.trans h.tidyUsed
  unused slot' hslot := by
    rw [hbeside.used] at hslot
    obtain ⟨hne, hbefore⟩ := h.unused slot' hslot
    rw [(hbeside.shape slot' hne).key, (hbeside.shape slot' hne).nrBlocks, h.others slot' hne]
    exact htidy.unused slot' hbefore
  cycles slot' hslot := by
    rw [hbeside.used] at hslot
    by_cases hne : slot' = slot
    · rw [hne]
      exact ⟨B, c, hB⟩
    · obtain ⟨B', c', hB'⟩ := htidy.cycles slot' (h.mono slot' hne hslot)
      exact ⟨B', c', hbeside.cycles hne (h.cycles hne hB')⟩

theorem Ready.find_self (h : Ready s s₁ key slot) (hbeside : Beside s₁ s' slot) : s'.findSlot key = some slot :=
  (findSlot_congr hbeside.used hbeside.keys key).trans h.find

/-- The toggle of another key. -/
theorem Ready.defines {key' : Int} (h : Ready s s₁ key slot) (hbeside : Beside s₁ s' slot) (hne : key' ≠ key) (hkey' : s.Defines key' B c) :
    s'.Defines key' B c := by
  obtain ⟨hB, slot', hslot', hcycles⟩ := hkey'
  have hapart : slot' ≠ slot := fun hsame => hne (h.findBefore key' (hsame ▸ hslot'))
  refine ⟨hB, slot', ?_, hbeside.cycles hapart (h.cycles hapart hcycles)⟩
  rw [findSlot_congr hbeside.used hbeside.keys, h.findOther key' hne, hslot']

/-- Nothing is left in the slot that the definition does not reset. -/
structure Clear (s : State) (slot : Nat) (B : List Block) : Prop where
  counted : ∀ j b, B[j]? = some b → maxVarPerBlock ≤ j → ((s.toggleData slot).block j).nrVars ≤ b.length
  shares : ∀ j b v e, B[j]? = some b → b[v]? = some e → ¬ s.Shares slot j v e ((B.take j).flatten ++ b.take v)

theorem Ready.clean (h : Ready s s' key slot) (hclear : s.Clear slot B) : s'.Clean slot 0 B where
  counted j b hb := by
    rw [Nat.zero_add, h.nrVars]
    split
    · exact Nat.zero_le _
    next hj => exact hclear.counted j b hb (Nat.not_lt.1 hj)
  shares j b v e hb he hshares := by
    refine hclear.shares j b v e hb he ?_
    unfold Shares text at hshares ⊢
    rwa [Nat.zero_add, h.entry, h.vars] at hshares

theorem SparesVars.of_ready (h : Ready s s' key slot) {bl var : Nat} {behind behind' : Prop} (hbehind : behind → behind')
    (texts : List (List Byte))
    (hspares : s.SparesVars slot bl behind var texts) : s'.SparesVars slot bl behind' var texts := by
  induction texts generalizing var with
  | nil => exact hbehind hspares
  | cons text texts ih =>
    refine hspares.imp_right fun hplace name value hparse => ?_
    have hsame : s'.hasValue slot bl var name value = s.hasValue slot bl var name value := by
      unfold hasValue
      rw [h.entry, h.vars]
    have hrest := hplace name value hparse
    rw [hsame]
    split at hrest
    next hskip =>
      rw [if_pos hskip]
      exact ih hrest
    next hskip =>
      rw [if_neg hskip]
      unfold CanHang at hrest ⊢
      rwa [h.vars]

theorem Ready.spares (h : Ready s s' key slot) {bl : Nat} (texts : List (Option (List Byte))) (hspares : s.Spares slot bl texts) :
    s'.Spares slot bl texts := by
  induction texts generalizing bl with
  | nil => exact hspares
  | cons text texts ih =>
    cases text with
    | none => exact hspares
    | some body => exact SparesVars.of_ready h (Or.imp_right ih) _ hspares

/-- A definition that is accepted leaves the slot clear, and one that is refused spares the variables, and has had no
toggle to reset. -/
def MeetsSet (s : State) (text : List Byte) : Prop :=
  ∀ k d t slot s₁, text = k :: d :: t → s.takeSlot k.toInt = some (slot, s₁) →
    (∀ s' B, s.toggleSet text = some (none, s') → parseBlocks (blockTexts (d :: t)) = some B → s.Clear slot B) ∧
      ∀ s' err, s.toggleSet text = some (some err, s') → (s.toggleData slot).nrBlocks = 0 ∧ s.Spares slot 0 (blockTexts (d :: t))

theorem blockTexts_length (d : Byte) (t : List Byte) : 0 < (blockTexts (d :: t)).length := by
  rw [blockTexts, if_neg (List.cons_ne_nil _ _)]
  split <;> exact Nat.succ_pos _

theorem toInt_ne_zero {k : Byte} (hk : k ≠ 0) : k.toInt ≠ 0 := fun hzero => hk (BitVec.eq_of_toInt_eq hzero)

/-- **A definition that is accepted.** -/
theorem toggleSet_done (h : s.Tidy) {text : List Byte} (htext : (0 : Byte) ∉ text) (hmeets : s.MeetsSet text)
    (hdone : s.toggleSet text = some (none, s')) :
    ∃ k d t B, text = k :: d :: t ∧ parseBlocks (blockTexts (d :: t)) = some B ∧ s'.Tidy ∧ s'.Defines k.toInt B 0 ∧
      ∀ key B c, key ≠ k.toInt → s.Defines key B c → s'.Defines key B c := by
  have hcall := hdone
  unfold toggleSet at hdone
  split at hdone
  next k d t =>
    split at hdone
    · cases hdone
    next slot s₁ htake =>
      have hk : k.toInt ≠ 0 := toInt_ne_zero fun hzero => htext (hzero ▸ List.mem_cons_self)
      have hready := h.ready hk htake
      split at hdone
      · cases hdone
      next s₂ hprocess =>
        obtain ⟨⟨ok, s₃⟩, hblock, hsame⟩ := Option.map_eq_some_iff.1 hdone
        obtain ⟨-, rfl⟩ := Prod.mk.inj hsame
        obtain ⟨B, hB, hlen⟩ := parse_of_processBlocks _ hprocess
        have hpos : 0 < B.length := hlen ▸ blockTexts_length d t
        have hchars := blockTexts_chars (d :: t) fun hin => htext (List.mem_cons_of_mem _ hin)
        have hclear := (hmeets k d t slot s₁ rfl htake).1 s₃ B hcall hB
        have hdefined := processBlocks_done _ (hready.fine h.fine) hchars hB (hready.clean hclear) hprocess
        have hcycles : s₂.Cycles slot B 0 := by
          refine ⟨by rw [hdefined.nrBlocks, Nat.zero_add], hdefined.currentBlock.trans hready.currentBlock, fun _ => hpos, fun j b hb => ?_⟩
          have hblock := hdefined.blocks j b hb
          rwa [Nat.zero_add] at hblock
        have hb : B[0]? = some B[0] := List.getElem?_eq_getElem hpos
        have hused : slot < s₂.togglesUsed := by
          rw [hdefined.used]
          exact hready.slotUsed
        obtain ⟨s₄, hblock', hset⟩ := doBlock_done hdefined.fine hused (by rw [hcycles.nrBlocks]; exact hpos) (hcycles.blocks 0 _ hb)
        rw [hblock] at hblock'
        obtain ⟨-, rfl⟩ := Prod.mk.inj (Option.some.inj hblock')
        have hbeside := hdefined.beside.trans (hset.beside slot)
        have hlast := hset.cycles hcycles
        exact ⟨k, d, t, B, rfl, hB, hready.tidy h hbeside hset.fine hlast,
          ⟨List.length_pos_iff.1 hpos, slot, hready.find_self hbeside, hlast⟩,
          fun key B' c hne hkey => hready.defines hbeside hne hkey⟩
  · cases hdone

/-- **A definition that is refused.** -/
theorem toggleSet_refused (h : s.Tidy) {text : List Byte} {err : GrubError} (htext : (0 : Byte) ∉ text) (hmeets : s.MeetsSet text)
    (hrefused : s.toggleSet text = some (some err, s')) : s'.Tidy ∧ s'.get = s.get ∧ ∀ key B c, s.Defines key B c → s'.Defines key B c := by
  have hcall := hrefused
  unfold toggleSet at hrefused
  split at hrefused
  next k d t =>
    split at hrefused
    · obtain ⟨-, rfl⟩ := Prod.mk.inj (Option.some.inj hrefused)
      exact ⟨h, rfl, fun _ _ _ hkey => hkey⟩
    next slot s₁ htake =>
      have hk : k.toInt ≠ 0 := toInt_ne_zero fun hzero => htext (hzero ▸ List.mem_cons_self)
      have hready := h.ready hk htake
      split at hrefused
      next s₂ hprocess =>
        obtain ⟨-, rfl⟩ := Prod.mk.inj (Option.some.inj hrefused)
        obtain ⟨hempty, hspares⟩ := (hmeets k d t slot s₁ rfl htake).2 _ _ hcall
        have hchars := blockTexts_chars (d :: t) fun hin => htext (List.mem_cons_of_mem _ hin)
        have hidle := processBlocks_spared (hready.fine h.fine) _ (.refl _ slot) hchars (hready.spares _ hspares) hprocess
        have hcycles : s₂.Cycles slot [] (s₂.toggleData slot).currentBlock :=
          ⟨hidle.nrBlocks.trans hready.nrBlocks, rfl, fun hne => absurd rfl hne, fun _ _ hb => nomatch hb⟩
        refine ⟨hready.tidy h hidle.beside hidle.fine hcycles, funext fun n => ?_, fun key B c hkey => ?_⟩
        · rw [hidle.get, hready.vars]
        · refine hready.defines hidle.beside (fun hsame => ?_) hkey
          -- The key has had a toggle with blocks.
          obtain ⟨hne, slot', hslot', hB⟩ := hkey
          rw [hsame] at hslot'
          have hzero := hB.nrBlocks
          rw [hready.findSame slot' hslot', hempty] at hzero
          exact hne (List.length_eq_zero_iff.1 hzero.symm)
      · obtain ⟨r, -, hsame⟩ := Option.map_eq_some_iff.1 hrefused
        cases hsame
  · obtain ⟨-, rfl⟩ := Prod.mk.inj (Option.some.inj hrefused)
    exact ⟨h, rfl, fun _ _ _ hkey => hkey⟩

end State

end TrustedGrub.Builtins
