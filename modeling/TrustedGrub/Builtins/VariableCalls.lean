import TrustedGrub.Builtins.Toggles
import TrustedGrub.Builtins.VariableStore
import Mathlib.Logic.Relation

/-!
# Calls that set variables

The variables, and the values that the blocks of the toggles point to, in a run of calls: lines of `set`, and
what the toggles do when they are defined and pressed.
-/

namespace TrustedGrub.Builtins
open Fips180 (Byte)

/-! ## Calls -/

/-- A string of C. -/
abbrev CString := {t : List Byte // (0 : Byte) ∉ t}

namespace State
variable {s s' : State} {slot bl var : Nat}

section Sets
variable {name value : List Byte}

/-- The string of an assignment in a block. -/
def text (s : State) (slot bl var : Nat) : Option (List Byte) := (s.entry slot bl var).value.map s.str

/-- The pointers of the blocks. -/
def Entries (s : State) : Set Nat := {p | ∃ slot bl var, (s.entry slot bl var).value = some p}

/-- What a call that sets `name` keeps, also in the blocks. A value may be hung in one of them. -/
structure Keeps (s s' : State) (name value : List Byte) (own : Option (Nat × Nat × Nat)) (ok : Bool) : Prop where
  get : ok = true → s'.get name = some value
  others : ∀ n, (ok = true → n ≠ name) → s'.get n = s.get n
  blocks : ∀ slot bl var, (ok = true → own ≠ some (slot, bl, var)) → s'.text slot bl var = s.text slot bl var
  own : ok = true → ∀ slot bl var, own = some (slot, bl, var) → s'.text slot bl var = some value

/-- The invariant, with the pointers of the blocks. -/
structure Fine (s : State) : Prop where
  inv : s.Inv s.Entries
  valued : s.Valued

theorem setEntry_self (s : State) (slot bl var : Nat) (e : ToggleVar) : (s.setEntry slot bl var e).entry slot bl var = e := by
  unfold entry setEntry withBlock withToggle
  simp only [Function.update_self]

theorem setEntry_other (s : State) (e : ToggleVar) {slot' bl' var' : Nat} (hne : (slot, bl, var) ≠ (slot', bl', var')) :
    (s.setEntry slot bl var e).entry slot' bl' var' = s.entry slot' bl' var' := by
  unfold entry setEntry withBlock withToggle
  simp only
  by_cases hslot : slot' = slot
  · subst hslot
    rw [Function.update_self]
    by_cases hbl : bl' = bl
    · subst hbl
      simp only [Function.update_self]
      rw [Function.update_of_ne fun hvar => hne (by rw [hvar])]
    · simp only [Function.update_of_ne hbl]
  · rw [Function.update_of_ne hslot]

/-- An assignment that keeps its value. -/
theorem setEntry_value (s : State) (slot bl var : Nat) (v : Int) (slot' bl' var' : Nat) :
    ((s.setEntry slot bl var { s.entry slot bl var with var := v }).entry slot' bl' var').value = (s.entry slot' bl' var').value := by
  by_cases hsame : (slot, bl, var) = (slot', bl', var')
  · cases hsame
    rw [setEntry_self]
  · rw [setEntry_other _ _ hsame]

/-- The variables change, and the blocks stay. -/
theorem Fine.withVars (_ : s.Fine) {vars : Vars} {ok : Bool} (h : Vars.Kept s.toVars vars s.Entries name value ok) :
    (s.withVars vars).Fine ∧ Keeps s (s.withVars vars) name value none ok := by
  refine ⟨⟨h.inv, h.valued⟩, h.get, h.others, fun slot bl var _ => ?_, fun _ _ _ _ hown => nomatch hown⟩
  show (s.entry slot bl var).value.map vars.str = (s.entry slot bl var).value.map s.str
  cases hp : (s.entry slot bl var).value with
  | none => rfl
  | some p => exact congrArg some (h.outside p ⟨slot, bl, var, hp⟩)

/-- Names stay, and the strings of the blocks. -/
structure Frame (s s' : State) : Prop where
  named : ∀ i n, s.Named i n → s'.Named i n
  strs : ∀ p ∈ s.Entries, s'.str p = s.str p

theorem withToggle_self (s : State) (slot : Nat) (t : Toggle) : (s.withToggle slot t).toggleData slot = t := Function.update_self _ _ _

theorem withToggle_other (s : State) (t : Toggle) {slot' : Nat} (hne : slot' ≠ slot) :
    (s.withToggle slot t).toggleData slot' = s.toggleData slot' :=
  Function.update_of_ne hne _ _

/-- Two toggles with the same key and blocks, up to the assignments. -/
structure SameShape (t t' : Toggle) : Prop where
  key : t'.key = t.key
  currentBlock : t'.currentBlock = t.currentBlock
  nrBlocks : t'.nrBlocks = t.nrBlocks
  nrVars : ∀ bl, (t'.block bl).nrVars = (t.block bl).nrVars

/-- The toggles are the same, up to their assignments. -/
structure SameTable (s s' : State) : Prop where
  used : s'.togglesUsed = s.togglesUsed
  shape : ∀ slot, SameShape (s.toggleData slot) (s'.toggleData slot)

theorem SameTable.refl (s : State) : SameTable s s := ⟨rfl, fun _ => ⟨rfl, rfl, rfl, fun _ => rfl⟩⟩

theorem setEntry_sameTable (s : State) (vars : Vars) (slot bl var : Nat) (e : ToggleVar) :
    SameTable s ((s.withVars vars).setEntry slot bl var e) := by
  refine ⟨rfl, fun slot' => ?_⟩
  unfold setEntry withBlock
  by_cases hslot : slot' = slot
  · subst hslot
    rw [withToggle_self]
    refine ⟨rfl, rfl, rfl, fun bl' => ?_⟩
    show (Function.update (s.toggleData slot').block bl _ bl').nrVars = _
    by_cases hbl : bl' = bl
    · subst hbl
      rw [Function.update_self]
      rfl
    · rw [Function.update_of_ne hbl]
  · rw [withToggle_other _ _ hslot]
    exact ⟨rfl, rfl, rfl, fun _ => rfl⟩

/-- An assignment sets a variable to a value. -/
def Assigns (s : State) (slot bl var : Nat) (name value : List Byte) : Prop :=
  ∃ i p : Nat, s.entry slot bl var = ⟨i, some p⟩ ∧ i < variablesMax ∧ name ≠ [] ∧ s.Named i name ∧ s.str p = value

/-- What `process_var` comes to when it hangs in a value. -/
structure HungIn (s s' : State) (slot bl var : Nat) (name value : List Byte) (ok : Bool) : Prop where
  fine : s'.Fine
  keeps : Keeps s s' name value (some (slot, bl, var)) ok
  frame : Frame s s'
  table : SameTable s s'
  entries : ∀ slot' bl' var', (slot, bl, var) ≠ (slot', bl', var') → s'.entry slot' bl' var' = s.entry slot' bl' var'
  assigns : ok = true → s'.Assigns slot bl var name value

/-- **A value is hung in.** -/
theorem Fine.hangIn (h : s.Fine) (slot bl var : Nat) (hname : (0 : Byte) ∉ name) (hvalue : (0 : Byte) ∉ value) :
    HungIn s (s.hangIn slot bl var name value).2 slot bl var name value (s.hangIn slot bl var name value).1 := by
  unfold State.hangIn
  cases hcopy : s.copy value with
  | none =>
    refine ⟨h, ⟨fun hok => (nomatch hok), fun _ _ => rfl, fun _ _ _ _ => rfl, fun hok => nomatch hok⟩, ⟨fun _ _ hj => hj, fun _ _ => rfl⟩,
      .refl s, fun _ _ _ _ => rfl, fun hok => nomatch hok⟩
  | some r =>
    obtain ⟨p, vars⟩ := r
    have hcopied := h.inv.copy hvalue hcopy
    have hvalued : vars.Valued := by
      unfold Vars.Valued
      rw [hcopied.list]
      exact h.valued
    obtain ⟨hkept, -⟩ := hcopied.inv.setNoCopy hvalued hname (.inl rfl)
    rw [hcopied.str] at hkept
    dsimp only
    generalize (vars.setNoCopy name (some p)).2 = vars' at hkept ⊢
    have hstr (q : Nat) (hq : q ∈ s.Entries) : vars'.str q = s.str q :=
      (hkept.outside q (.inr hq)).trans (hcopied.others q (.inr (.inr hq)))
    have htext (slot' bl' var' : Nat) : (s.entry slot' bl' var').value.map vars'.str = s.text slot' bl' var' := by
      unfold text
      cases hq : (s.entry slot' bl' var').value with
      | none => rfl
      | some q => exact congrArg some (hstr q ⟨slot', bl', var', hq⟩)
    have hframe (e : ToggleVar) : Frame s ((s.withVars vars').setEntry slot bl var e) :=
      ⟨fun j n hj => hkept.named j n ((hcopied.named j n).2 hj), hstr⟩
    have hother (e : ToggleVar) {slot' bl' var' : Nat} (hne : (slot, bl, var) ≠ (slot', bl', var')) :
        ((s.withVars vars').setEntry slot bl var e).entry slot' bl' var' = s.entry slot' bl' var' := setEntry_other _ _ hne
    have hentries (e : ToggleVar) (he : ∀ q, e.value = some q → q ∈ insert p s.Entries) :
        ((s.withVars vars').setEntry slot bl var e).Entries ⊆ insert p s.Entries := by
      rintro q ⟨slot', bl', var', hq⟩
      by_cases hsame : (slot, bl, var) = (slot', bl', var')
      · cases hsame
        rw [setEntry_self] at hq
        exact he q hq
      · rw [hother e hsame] at hq
        exact .inr ⟨slot', bl', var', hq⟩
    cases hi : (s.withVars vars').getIndex name with
    | none =>
      have hi' : vars'.getIndex name = none := hi
      rw [hi'] at hkept
      have hvalue' := setEntry_value (s.withVars vars') slot bl var (-1)
      refine ⟨⟨hkept.inv.mono (hentries _ fun q hq => .inr ⟨slot, bl, var, hq⟩), hkept.valued⟩,
        ⟨fun hok => (nomatch hok), fun n _ => ?_, fun slot' bl' var' _ => ?_, fun hok => nomatch hok⟩, hframe _,
          setEntry_sameTable _ _ _ _ _ _,
        fun _ _ _ hne => hother _ hne, fun hok => nomatch hok⟩
      · exact (hkept.others n fun hok => nomatch hok).trans (hcopied.get n)
      · unfold text
        rw [hvalue']
        exact htext slot' bl' var'
    | some i =>
      have hi' : vars'.getIndex name = some i := hi
      rw [hi'] at hkept
      obtain ⟨hlt, hnamed, hne⟩ := Vars.named_of_getIndex hi'
      have hp : vars'.str p = value := (hkept.outside p (.inl rfl)).trans hcopied.str
      refine ⟨⟨hkept.inv.mono (hentries _ fun q hq => .inl (Option.some.inj hq).symm), hkept.valued⟩,
        ⟨fun _ => hkept.get rfl, fun n hn => ?_, fun slot' bl' var' hown => ?_, fun _ slot' bl' var' hown => ?_⟩, hframe _,
        setEntry_sameTable _ _ _ _ _ _, fun _ _ _ hne => hother _ hne, fun _ => ⟨i, p, setEntry_self _ _ _ _ _, hlt, hne, hnamed, hp⟩⟩
      · exact (hkept.others n fun _ => hn rfl).trans (hcopied.get n)
      · unfold text
        rw [hother _ fun hsame => hown rfl (congrArg some hsame)]
        exact htext slot' bl' var'
      · cases hown
        unfold text
        rw [setEntry_self]
        exact congrArg some hp

end Sets

/-! ## Runs -/

/-- A call that sets a variable: for a line of `set`, for an assignment of a toggle that is pressed, and for one
that is defined. -/
inductive Call where
  | set (name value : CString)
  | setNoCopy (name : CString) (slot bl var : Nat)
  | hangIn (slot bl var : Nat) (name value : CString)

namespace Call

/-- Whether the call succeeds, and the state. -/
def run (s : State) : Call → Option (Bool × State)
  | set name value => (s.set name.1 value.1).map fun (ok, vars) => (ok, s.withVars vars)
  | setNoCopy name slot bl var =>
    some ((s.setNoCopy name.1 (s.entry slot bl var).value).1, s.withVars (s.setNoCopy name.1 (s.entry slot bl var).value).2)
  | hangIn slot bl var name value => some (s.hangIn slot bl var name.1 value.1)

def name : Call → List Byte
  | set name _ | setNoCopy name _ _ _ | hangIn _ _ _ name _ => name.1

/-- The value that is set. -/
def value (s : State) : Call → List Byte
  | set _ value | hangIn _ _ _ _ value => value.1
  | setNoCopy _ slot bl var => (s.text slot bl var).getD []

/-- The assignment that the value is hung in. -/
def own : Call → Option (Nat × Nat × Nat)
  | hangIn slot bl var _ _ => some (slot, bl, var)
  | _ => none

/-- The call names a variable, does not stop halfway, and does not write over a value that is shared. -/
def Sound (s : State) : Call → Prop
  | set name value => name.1 ≠ [] ∧ ¬ s.StopsHalfway name.1 value.1 ∧ ¬ s.Overwrites s.Entries name.1 value.1
  | setNoCopy name _ _ _ | hangIn _ _ _ name _ => name.1 ≠ []

end Call

/-- A call, or a change of a toggle that leaves its values. -/
inductive Step (P : State → Call → Prop) (s s' : State) : Prop where
  | call (c : Call) (ok : Bool) (met : P s c) (run : c.run s = some (ok, s'))
  | mark (vars : s'.toVars = s.toVars) (values : ∀ slot bl var, (s'.entry slot bl var).value = (s.entry slot bl var).value)

/-- The state at the start. -/
structure Unset (s : State) : Prop where
  actpos : s.actpos ≤ variableStoreSize
  list : ∀ i, (s.list i).name = none ∧ (s.list i).value = none
  blocks : ∀ slot bl var, (s.entry slot bl var).value = none

theorem Unset.fine (h : s.Unset) : s.Fine := by
  have hnames : s.Names = ∅ := Set.eq_empty_of_forall_notMem fun a ⟨i, hi⟩ => by
    rw [(h.list i).1] at hi
    cases hi
  have hvalues : s.Values = ∅ := Set.eq_empty_of_forall_notMem fun p ⟨i, hi⟩ => by
    rw [(h.list i).2] at hi
    cases hi
  have hentries : s.Entries = ∅ := Set.eq_empty_of_forall_notMem fun p ⟨slot, bl, var, hp⟩ => by
    rw [h.blocks] at hp
    cases hp
  refine ⟨⟨?_, fun a ha => ?_⟩, fun i hi => ?_⟩
  · rw [hnames, hvalues, hentries, Set.union_self, Set.union_self]
    exact ⟨h.actpos, fun p hp => hp.elim, fun p hp => hp.elim⟩
  · rw [hnames] at ha
    exact ha.elim
  · rw [(h.list i).1] at hi
    cases hi

/-- **One call.** -/
theorem Fine.call (h : s.Fine) (c : Call) (hsound : c.Sound s) :
    ∃ ok s', c.run s = some (ok, s') ∧ s'.Fine ∧ Keeps s s' c.name (c.value s) c.own ok := by
  cases c with
  | set name value =>
    obtain ⟨hne, hhalfway, hover⟩ := hsound
    obtain ⟨ok, vars, hset, hkept⟩ := h.inv.set h.valued name.2 value.2 hne hhalfway hover
    obtain ⟨hfine, hkeeps⟩ := h.withVars hkept
    refine ⟨ok, s.withVars vars, ?_, hfine, hkeeps⟩
    rw [Call.run, hset]
    rfl
  | setNoCopy name slot bl var =>
    refine ⟨_, _, rfl, ?_⟩
    cases hp : (s.entry slot bl var).value with
    | none => exact h.withVars (.refl h.inv h.valued _ _)
    | some p =>
      have hvalue : Call.value s (.setNoCopy name slot bl var) = s.str p := by
        show (Option.map s.str (s.entry slot bl var).value).getD [] = _
        rw [hp]
        rfl
      obtain ⟨hkept, hok⟩ := h.inv.setNoCopy h.valued name.2 ⟨slot, bl, var, hp⟩
      rw [← hok hsound] at hkept
      rw [hvalue]
      exact h.withVars hkept
  | hangIn slot bl var name value =>
    have hhung := h.hangIn slot bl var name.2 value.2
    exact ⟨_, _, rfl, hhung.fine, hhung.keeps⟩

theorem Fine.step (h : s.Fine) (hstep : Step (fun s c => c.Sound s) s s') : s'.Fine := by
  cases hstep with
  | call c ok met run =>
    obtain ⟨ok', s₁, hrun, hfine, -⟩ := h.call c met
    rw [run] at hrun
    cases hrun
    exact hfine
  | mark vars values =>
    have hentries : s'.Entries = s.Entries := by
      unfold Entries
      simp only [values]
    refine ⟨?_, ?_⟩
    · rw [vars, hentries]
      exact h.inv
    · rw [vars]
      exact h.valued

/-- **Every run of calls**: every variable has a value, and the next call keeps what it does not set. -/
theorem variables_kept {s₀ : State} (h₀ : s₀.Unset) (hrun : Relation.ReflTransGen (Step fun s c => c.Sound s) s₀ s) :
    s.Valued ∧ ∀ c : Call, c.Sound s → ∃ ok s', c.run s = some (ok, s') ∧ Keeps s s' c.name (c.value s) c.own ok := by
  have hfine : s.Fine := by
    induction hrun with
    | refl => exact h₀.fine
    | tail _ hstep ih => exact ih.step hstep
  refine ⟨hfine.valued, fun c hsound => ?_⟩
  obtain ⟨ok, s', hcall, -, hkeeps⟩ := hfine.call c hsound
  exact ⟨ok, s', hcall, hkeeps⟩

/-! ### A block and its variable -/

/-- Nothing is set. -/
def blank : State where
  variableStore := fun _ => 0
  actpos := 0
  list := fun _ => ⟨none, none⟩
  togglesUsed := 0
  toggleData := fun _ => ⟨0, 0, 0, fun _ => ⟨0, fun _ => ⟨0, none⟩⟩⟩

theorem blank_unset : blank.Unset := ⟨Nat.zero_le _, fun _ => ⟨rfl, rfl⟩, fun _ _ _ => rfl⟩

/-- `a=12` in a block of a toggle. -/
def defineA : Call := .hangIn 0 0 0 ⟨[0x61], by decide⟩ ⟨[0x31, 0x32], by decide⟩

/-- `set a=3` -/
def setA : Call := .set ⟨[0x61], by decide⟩ ⟨[0x33], by decide⟩

theorem defineA_text : (defineA.run blank).map (fun r => (r.1, r.2.text 0 0 0)) = some (true, some [0x31, 0x32]) := by
  decide +kernel

/-- `b=3` in the same block. -/
def hangInB : Call := .hangIn 0 0 1 ⟨[0x62], by decide⟩ ⟨[0x33], by decide⟩

theorem variables_kept_hangInB : ∃ s₁ ok s₂, defineA.run blank = some (true, s₁) ∧ hangInB.run s₁ = some (ok, s₂) ∧
    s₂.text 0 0 0 = some [0x31, 0x32] ∧ (ok = true → s₂.get [0x62] = some [0x33]) := by
  obtain ⟨⟨ok, s₁⟩, hdefine, hafter⟩ := Option.map_eq_some_iff.1 defineA_text
  obtain ⟨rfl, htext⟩ : ok = true ∧ s₁.text 0 0 0 = some [0x31, 0x32] := Prod.mk.inj hafter
  have hsound : defineA.Sound blank := List.cons_ne_nil _ _
  have hsound' : hangInB.Sound s₁ := List.cons_ne_nil _ _
  obtain ⟨ok, s₂, hrun, hkeeps⟩ := (variables_kept blank_unset (.single (.call defineA true hsound hdefine))).2 hangInB hsound'
  have hother : hangInB.own ≠ some (0, 0, 0) := by decide
  exact ⟨s₁, ok, s₂, hdefine, hrun, (hkeeps.blocks 0 0 0 fun _ => hother).trans htext, hkeeps.get⟩

/-- The assignment of the toggle is lost. -/
theorem defineA_setA :
    ((defineA.run blank).bind fun r => setA.run r.2).map (fun r => (r.1, r.2.text 0 0 0)) = some (true, some [0x33]) := by
  decide +kernel

theorem variables_overwritten : ¬ ∀ s₀ s : State, s₀.Unset → Relation.ReflTransGen (Step fun _ _ => True) s₀ s →
    ∀ (c : Call) (ok : Bool) (s' : State), c.run s = some (ok, s') → Keeps s s' c.name (c.value s) c.own ok := by
  intro hall
  obtain ⟨⟨ok', s₂⟩, hbind, hvalue⟩ := Option.map_eq_some_iff.1 defineA_setA
  obtain ⟨⟨ok, s₁⟩, hdefine, hset⟩ := Option.bind_eq_some_iff.1 hbind
  obtain ⟨rfl, htext⟩ : ok' = true ∧ s₂.text 0 0 0 = some [0x33] := Prod.mk.inj hvalue
  have hfirst := defineA_text
  rw [hdefine] at hfirst
  obtain ⟨-, hbefore⟩ := Prod.mk.inj (Option.some.inj hfirst)
  have hkeeps := hall blank s₁ blank_unset (.single (.call defineA ok trivial hdefine)) setA true s₂ hset
  have hsame : s₂.text 0 0 0 = s₁.text 0 0 0 := hkeeps.blocks 0 0 0 fun _ h => nomatch h
  rw [htext, hbefore] at hsame
  exact absurd hsame (by decide)

/-- A change of a slot that leaves its values. -/
theorem withToggle_entry (s : State) (t : Toggle) (hvalues : ∀ bl var, ((t.block bl).var var).value = (s.entry slot bl var).value)
    (slot' bl var : Nat) : ((s.withToggle slot t).entry slot' bl var).value = (s.entry slot' bl var).value := by
  unfold entry withToggle
  by_cases hslot : slot' = slot
  · subst hslot
    simp only [Function.update_self]
    exact hvalues bl var
  · simp only [Function.update_of_ne hslot]

/-! ### Texts -/

theorem parseVar_chars {text name value : List Byte} (h : parseVar text = some (name, value)) (htext : (0 : Byte) ∉ text) :
    (0 : Byte) ∉ name ∧ (0 : Byte) ∉ value := by
  unfold parseVar at h
  dsimp only at h
  have hstart : ∀ c, c ∈ text.dropWhile Disk.isspace → c ∈ text := fun c hc => (List.dropWhile_sublist _).subset hc
  generalize text.dropWhile Disk.isspace = start at h hstart
  split at h
  · cases h
  next c rest hrest =>
    split at h
    · obtain ⟨rfl, rfl⟩ := Prod.mk.inj (Option.some.inj h)
      refine ⟨fun hc => htext (hstart 0 ((List.takeWhile_sublist _).subset hc)), fun hc => htext (hstart 0 ?_)⟩
      have htail : (0 : Byte) ∈ c :: rest := List.mem_cons_of_mem _ ((List.dropWhile_sublist _).subset hc)
      rw [← hrest] at htail
      exact (List.drop_sublist _ _).subset ((List.dropWhile_sublist _).subset htail)
    · cases h

theorem splitVars_chars (start text : List Byte) (hstart : (0 : Byte) ∉ start) (htext : (0 : Byte) ∉ text) :
    ∀ piece ∈ splitVars start text, (0 : Byte) ∉ piece := by
  induction start, text using splitVars.induct with
  | case1 => exact fun piece h => nomatch h
  | case2 start c =>
    intro piece hpiece
    rw [splitVars] at hpiece
    rw [List.mem_singleton.1 hpiece, List.mem_append]
    exact fun h => h.elim hstart htext
  | case3 start d rest ih =>
    intro piece hpiece
    rw [splitVars, if_pos rfl] at hpiece
    obtain rfl | hpiece := List.mem_cons.1 hpiece
    · exact hstart
    · exact ih List.not_mem_nil (fun h => htext (List.mem_cons_of_mem _ h)) piece hpiece
  | case4 start c d rest hc ih =>
    intro piece hpiece
    rw [splitVars, if_neg hc] at hpiece
    refine ih (fun h => ?_) (fun h => htext (List.mem_cons_of_mem _ h)) piece hpiece
    obtain h | h := List.mem_append.1 h
    · exact hstart h
    · exact htext (List.mem_singleton.1 h ▸ List.mem_cons_self)

theorem nextBlock_chars {text body behind : List Byte} (h : nextBlock text = some (body, behind)) (htext : (0 : Byte) ∉ text) :
    (0 : Byte) ∉ body ∧ (0 : Byte) ∉ behind := by
  unfold nextBlock at h
  split at h
  · cases h
  next c rest hstart =>
    have hrest : (0 : Byte) ∉ rest := fun hc => htext ((List.dropWhile_sublist Disk.isspace).subset (hstart ▸ List.mem_cons_of_mem _ hc))
    split at h
    · split at h
      · cases h
      next c' behind' hbehind =>
        obtain ⟨rfl, rfl⟩ := Prod.mk.inj (Option.some.inj h)
        refine ⟨fun hc => hrest ((List.takeWhile_sublist _).subset hc), fun hc => hrest ?_⟩
        exact (List.dropWhile_sublist _).subset (hbehind ▸ List.mem_cons_of_mem _ hc)
    · cases h

theorem blockTexts_chars (text : List Byte) (htext : (0 : Byte) ∉ text) : ∀ body, some body ∈ blockTexts text → (0 : Byte) ∉ body := by
  induction text using blockTexts.induct with
  | case1 =>
    intro body h
    rw [blockTexts, if_pos rfl] at h
    cases h
  | case2 text hne hnext =>
    intro body h
    rw [blockTexts, if_neg hne] at h
    split at h
    next => cases List.mem_singleton.1 h
    next hsome =>
      rw [hnext] at hsome
      cases hsome
  | case3 text hne body' behind hnext _ ih =>
    intro body h
    obtain ⟨hbody, hbehind⟩ := nextBlock_chars hnext htext
    rw [blockTexts, if_neg hne] at h
    split at h
    next hnone =>
      rw [hnext] at hnone
      cases hnone
    next hsome =>
      rw [hnext] at hsome
      cases hsome
      obtain h | h := List.mem_cons.1 h
      · cases h
        exact hbody
      · exact ih hbehind body h

end State

end TrustedGrub.Builtins
