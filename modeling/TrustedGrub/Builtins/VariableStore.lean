import TrustedGrub.Builtins.Variables
import TrustedGrub.Lib.StringPool
import Mathlib.Data.List.Find

/-!
# The store of the variables

What a call that sets a variable leaves of the other variables, and of strings in the store that something
else points to. A value may be shared, and `var_set` writes over it.
-/

namespace TrustedGrub.Builtins
open Fips180 (Byte)

/-! ## Searches -/

namespace Vars
variable {s s' : Vars} {name n : List Byte} {i j p a : Nat} {E : Set Nat}

/-- The variable `i` has the name. -/
def Named (s : Vars) (i : Nat) (n : List Byte) : Prop := ∃ a, (s.list i).name = some a ∧ s.str a = n

theorem named_iff : s.Named i n ↔ ((s.list i).name.any fun a => s.str a = n) = true := by
  unfold Named
  cases (s.list i).name with
  | none =>
    constructor
    · rintro ⟨a, ha, -⟩
      cases ha
    · intro h
      cases h
  | some a =>
    rw [Option.any_some, decide_eq_true_iff]
    constructor
    · rintro ⟨b, hb, rfl⟩
      rw [Option.some.inj hb]
    · exact fun h => ⟨a, rfl, h⟩

theorem named_of_getIndex (h : s.getIndex n = some i) : i < variablesMax ∧ s.Named i n ∧ n ≠ [] := by
  unfold getIndex at h
  split at h
  · cases h
  next hne =>
    exact ⟨List.mem_range.1 (List.mem_of_find?_eq_some h),
      named_iff.2 (List.find?_some (p := fun i => (s.list i).name.any fun a => s.str a = n) h), hne⟩

theorem not_named_of_getIndex (h : s.getIndex n = none) (hne : n ≠ []) (hi : i < variablesMax) : ¬ s.Named i n := by
  rw [getIndex, if_neg hne, List.find?_eq_none] at h
  rw [named_iff]
  exact h i (List.mem_range.2 hi)

/-- Variables with the same names are found in the same place. -/
theorem getIndex_congr (h : ∀ i < variablesMax, s'.Named i n ↔ s.Named i n) : s'.getIndex n = s.getIndex n := by
  unfold getIndex
  split
  · rfl
  · refine List.find?_congr fun i hi => Bool.eq_iff_iff.2 ?_
    rw [← named_iff, ← named_iff]
    exact h i (List.mem_range.1 hi)

theorem getIndex_isSome (hi : i < variablesMax) (h : s.Named i n) (hne : n ≠ []) : ∃ j, s.getIndex n = some j := by
  cases hj : s.getIndex n with
  | none => exact absurd h (not_named_of_getIndex hj hne hi)
  | some j => exact ⟨j, rfl⟩

/-- A variable is found by a name that no other has. -/
theorem getIndex_eq (hi : i < variablesMax) (h : s.Named i n) (hne : n ≠ []) (hother : ∀ j < variablesMax, j ≠ i → ¬ s.Named j n) :
    s.getIndex n = some i := by
  obtain ⟨j, hj⟩ := getIndex_isSome hi h hne
  obtain ⟨hlt, hnamed, -⟩ := named_of_getIndex hj
  rw [hj, by_contra fun hji => hother j hlt hji hnamed]

theorem get_of_getIndex (h : s.getIndex n = some i) : s.get n = (s.list i).value.map s.str := by
  rw [get, h]
  rfl

theorem get_eq_none (h : s.getIndex n = none) : s.get n = none := by
  rw [get, h]
  rfl

/-- What the value of a variable depends on. -/
theorem get_congr (hnamed : ∀ i < variablesMax, s'.Named i n ↔ s.Named i n)
    (hvalue : ∀ i < variablesMax, s.Named i n → (s'.list i).value.map s'.str = (s.list i).value.map s.str) : s'.get n = s.get n := by
  have hindex := getIndex_congr hnamed
  cases hi : s.getIndex n with
  | none => rw [get_eq_none (hindex.trans hi), get_eq_none hi]
  | some i =>
    obtain ⟨hlt, hname, -⟩ := named_of_getIndex hi
    rw [get_of_getIndex (hindex.trans hi), get_of_getIndex hi, hvalue i hlt hname]

/-! ## The pool -/

/-- The pointers to names. -/
def Names (s : Vars) : Set Nat := {a | ∃ i, (s.list i).name = some a}

/-- The pointers to values. -/
def Values (s : Vars) : Set Nat := {p | ∃ i, (s.list i).value = some p}

/-- The strings that are pointed to, also from outside of the list, lie apart. -/
structure Inv (s : Vars) (E : Set Nat) : Prop where
  pool : StringPool.Apart 0 variableStoreSize s.variableStore s.actpos (s.Names ∪ (s.Values ∪ E))
  distinct : ∀ a ∈ s.Names, a ∉ s.Values ∪ E

theorem Inv.mono {E' : Set Nat} (h : s.Inv E) (hsub : E' ⊆ E) : s.Inv E' where
  pool := h.pool.mono (Set.union_subset_union_right _ (Set.union_subset_union_right _ hsub))
  distinct a ha hin := h.distinct a ha (Set.union_subset_union_right _ hsub hin)

/-- The list and the strings of the old pointers are as they were. -/
structure Copied (s s' : Vars) (E : Set Nat) (p : Nat) (text : List Byte) : Prop where
  list : s'.list = s.list
  fresh : p ∉ s.Names ∪ (s.Values ∪ E)
  str : s'.str p = text
  others : ∀ q ∈ s.Names ∪ (s.Values ∪ E), s'.str q = s.str q
  inv : s'.Inv (insert p E)

theorem Inv.copy (h : s.Inv E) {text : List Byte} (htext : (0 : Byte) ∉ text) (hcopy : s.copy text = some (p, s')) :
    Copied s s' E p text := by
  unfold Vars.copy allocMem at hcopy
  split at hcopy
  · cases hcopy
  next hroom =>
    obtain ⟨rfl, rfl⟩ := Prod.mk.inj (Option.some.inj hcopy)
    have hfit : s.actpos + (text.length + 1) ≤ variableStoreSize := by omega
    have halloc := h.pool.alloc hfit htext
    have hheld : insert s.actpos (s.Names ∪ (s.Values ∪ E)) = s.Names ∪ (s.Values ∪ insert s.actpos E) := by
      rw [Set.union_insert, Set.union_insert]
    refine ⟨rfl, h.pool.alloc_fresh, StringPool.Apart.alloc_self _ hfit htext, fun q hq => h.pool.alloc_other text hq,
      ⟨?_, fun a ha hin => ?_⟩⟩
    · rw [hheld] at halloc
      exact halloc
    · obtain hin | rfl | hin := hin
      · exact h.distinct a ha (.inl hin)
      · exact h.pool.alloc_fresh (.inl ha)
      · exact h.distinct a ha (.inr hin)

theorem Copied.named {text : List Byte} (h : Copied s s' E p text) (j : Nat) (n : List Byte) : s'.Named j n ↔ s.Named j n := by
  unfold Named
  rw [h.list]
  refine exists_congr fun a => and_congr_right fun ha => ?_
  rw [h.others a (.inl ⟨j, ha⟩)]

theorem Copied.get {text : List Byte} (h : Copied s s' E p text) (n : List Byte) : s'.get n = s.get n := by
  refine get_congr (fun j _ => h.named j n) fun j _ _ => ?_
  rw [h.list]
  cases hq : (s.list j).value with
  | none => rfl
  | some q => exact congrArg some (h.others q (.inr (.inl ⟨j, hq⟩)))

/-! ## Changes of the list -/

@[simp] theorem setValue_name (s : Vars) (i j : Nat) (val : Option Nat) : ((s.setValue i val).list j).name = (s.list j).name := by
  show (Function.update s.list i _ j).name = _
  by_cases hji : j = i
  · subst hji
    rw [Function.update_self]
  · rw [Function.update_of_ne hji]

@[simp] theorem setValue_self (s : Vars) (i : Nat) (val : Option Nat) : ((s.setValue i val).list i).value = val :=
  congrArg Variable.value (Function.update_self i _ s.list)

theorem setValue_other (s : Vars) (val : Option Nat) (hji : j ≠ i) : (s.setValue i val).list j = s.list j := Function.update_of_ne hji _ _

@[simp] theorem setName_value (s : Vars) (i j a : Nat) : ((s.setName i a).list j).value = (s.list j).value := by
  show (Function.update s.list i _ j).value = _
  by_cases hji : j = i
  · subst hji
    rw [Function.update_self]
  · rw [Function.update_of_ne hji]

@[simp] theorem setName_self (s : Vars) (i a : Nat) : ((s.setName i a).list i).name = some a :=
  congrArg Variable.name (Function.update_self i _ s.list)

theorem setName_other (s : Vars) (a : Nat) (hji : j ≠ i) : (s.setName i a).list j = s.list j := Function.update_of_ne hji _ _

theorem setValue_named (s : Vars) (i : Nat) (val : Option Nat) : (s.setValue i val).Named j n ↔ s.Named j n := by
  unfold Named
  rw [setValue_name]
  exact Iff.rfl

theorem Inv.setValue (h : s.Inv E) (i : Nat) (hp : p ∈ s.Values ∪ E) : (s.setValue i (some p)).Inv E := by
  have hnames : (s.setValue i (some p)).Names = s.Names := by
    unfold Names
    simp only [setValue_name]
  have hvalues : (s.setValue i (some p)).Values ∪ E ⊆ s.Values ∪ E := by
    rintro q (⟨j, hj⟩ | hq)
    · by_cases hji : j = i
      · rw [hji, setValue_self] at hj
        exact Option.some.inj hj ▸ hp
      · rw [setValue_other s _ hji] at hj
        exact .inl ⟨j, hj⟩
    · exact .inr hq
  refine ⟨?_, fun a ha hin => h.distinct a (hnames ▸ ha) (hvalues hin)⟩
  rw [hnames]
  exact h.pool.mono (Set.union_subset_union_right _ hvalues)

theorem Inv.setName (h : s.Inv (insert a E)) (i : Nat) (hfresh : a ∉ s.Values ∪ E) : (s.setName i a).Inv E := by
  have hvalues : (s.setName i a).Values = s.Values := by
    unfold Values
    simp only [setName_value]
  have hnames : ∀ b ∈ (s.setName i a).Names, b = a ∨ b ∈ s.Names := by
    rintro b ⟨j, hj⟩
    by_cases hji : j = i
    · rw [hji, setName_self] at hj
      exact .inl (Option.some.inj hj).symm
    · rw [setName_other s a hji] at hj
      exact .inr ⟨j, hj⟩
  refine ⟨h.pool.mono ?_, fun b hb hin => ?_⟩
  · rw [hvalues]
    rintro q (hq | hq | hq)
    · obtain rfl | hq := hnames q hq
      · exact .inr (.inr (.inl rfl))
      · exact .inl hq
    · exact .inr (.inl hq)
    · exact .inr (.inr (.inr hq))
  · rw [hvalues] at hin
    obtain rfl | hb := hnames b hb
    · exact hfresh hin
    · refine h.distinct b hb (hin.imp_right fun hin => ?_)
      exact .inr hin

/-! ## New variables -/

/-- The variable `i` is new, and has no value of its own yet. -/
structure Added (s s' : Vars) (E : Set Nat) (i : Nat) (name : List Byte) : Prop where
  slot : i < variablesMax
  free : (s.list i).name = none
  value : (s'.list i).value = (s.list i).value
  list : ∀ j, j ≠ i → s'.list j = s.list j
  named : s'.Named i name
  others : ∀ q ∈ s.Names ∪ (s.Values ∪ E), s'.str q = s.str q
  inv : s'.Inv E

theorem Inv.newVar (h : s.Inv E) (hname : (0 : Byte) ∉ name) (hnew : s.newVar name = some (i, s')) : Added s s' E i name := by
  unfold Vars.newVar at hnew
  split at hnew
  · cases hnew
  · obtain ⟨k, hk, hnew⟩ := Option.bind_eq_some_iff.1 hnew
    obtain ⟨⟨a, s₁⟩, hcopy, hnew⟩ := Option.bind_eq_some_iff.1 hnew
    obtain ⟨rfl, rfl⟩ := Prod.mk.inj (Option.some.inj hnew)
    have hcopied := h.copy hname hcopy
    have hvalues : s₁.Values = s.Values := by
      unfold Values
      rw [hcopied.list]
    refine ⟨List.mem_range.1 (List.mem_of_find?_eq_some hk), Option.isNone_iff_eq_none.1
      (List.find?_some (p := fun i => (s.list i).name.isNone) hk), ?_, fun j hji => ?_, ⟨a, setName_self s₁ k a, hcopied.str⟩,
      hcopied.others, hcopied.inv.setName k fun hin => hcopied.fresh (.inr (hvalues ▸ hin))⟩
    · rw [setName_value, hcopied.list]
    · rw [setName_other s₁ a hji, hcopied.list]

theorem Added.named_other (h : Added s s' E i name) (hji : j ≠ i) : s'.Named j n ↔ s.Named j n := by
  unfold Named
  rw [h.list j hji]
  refine exists_congr fun a => and_congr_right fun ha => ?_
  rw [h.others a (.inl ⟨j, ha⟩)]

theorem Added.not_named (h : Added s s' E i name) : ¬ s.Named i n := by
  rintro ⟨a, ha, -⟩
  rw [h.free] at ha
  cases ha

theorem Added.named_keep (h : Added s s' E i name) (hj : s.Named j n) : s'.Named j n :=
  (h.named_other fun hji => h.not_named (hji ▸ hj)).2 hj

theorem Named.eq (h : s.Named i n) (h' : s.Named i name) : n = name := by
  obtain ⟨a, ha, rfl⟩ := h
  obtain ⟨b, hb, rfl⟩ := h'
  rw [Option.some.inj (ha.symm.trans hb)]

/-- The other variables stay what they are. -/
theorem Added.get (h : Added s s' E i name) (hn : n ≠ name) : s'.get n = s.get n := by
  refine get_congr (fun j _ => ?_) fun j _ hj => ?_
  · by_cases hji : j = i
    · subst hji
      exact iff_of_false (fun hj => hn (hj.eq h.named)) h.not_named
    · exact h.named_other hji
  · have hji : j ≠ i := fun hji => h.not_named (hji ▸ hj)
    rw [h.list j hji]
    cases hvalue : (s.list j).value with
    | none => rfl
    | some q => exact congrArg some (h.others q (.inr (.inl ⟨j, hvalue⟩)))

theorem Added.getIndex (h : Added s s' E i name) (hnew : s.getIndex name = none) (hne : name ≠ []) : s'.getIndex name = some i :=
  getIndex_eq h.slot h.named hne fun _ hj hji hnamed => not_named_of_getIndex hnew hne hj ((h.named_other hji).1 hnamed)

/-! ## Sets -/

/-- Every variable has a value. -/
def Valued (s : Vars) : Prop := ∀ i, (s.list i).name.isSome → (s.list i).value.isSome

/-- What a call that sets `name` leaves. -/
structure Kept (s s' : Vars) (E : Set Nat) (name value : List Byte) (ok : Bool) : Prop where
  inv : s'.Inv E
  valued : s'.Valued
  get : ok = true → s'.get name = some value
  others : ∀ n, (ok = true → n ≠ name) → s'.get n = s.get n
  outside : ∀ p ∈ E, s'.str p = s.str p
  named : ∀ j n, s.Named j n → s'.Named j n

theorem Kept.refl (h : s.Inv E) (hvalued : s.Valued) (name value : List Byte) : Kept s s E name value false :=
  ⟨h, hvalued, fun hok => (nomatch hok), fun _ _ => rfl, fun _ _ => rfl, fun _ _ hj => hj⟩

theorem Valued.setValue (h : ∀ j, j ≠ i → (s.list j).name.isSome → (s.list j).value.isSome) (p : Nat) : (s.setValue i (some p)).Valued := by
  intro j hj
  by_cases hji : j = i
  · rw [hji, setValue_self]
    rfl
  · rw [setValue_other s _ hji] at hj ⊢
    exact h j hji hj

theorem get_setValue_other (hi : s.Named i name) (hn : n ≠ name) (val : Option Nat) : (s.setValue i val).get n = s.get n := by
  refine get_congr (fun j _ => setValue_named s i val) fun j _ hj => ?_
  have hji : j ≠ i := fun hji => hn ((hji ▸ hj : s.Named i n).eq hi)
  rw [setValue_other s val hji]
  rfl

theorem get_setValue_self (hi : s.getIndex name = some i) (val : Option Nat) : (s.setValue i val).get name = val.map s.str := by
  have hindex : (s.setValue i val).getIndex name = some i := (getIndex_congr fun j _ => setValue_named s i val).trans hi
  rw [get_of_getIndex hindex, setValue_self]
  rfl

/-- A variable that exists takes another value. -/
theorem Inv.setValue_kept (h : s.Inv E) (hvalued : ∀ j, j ≠ i → (s.list j).name.isSome → (s.list j).value.isSome)
    (hi : s.getIndex name = some i) (hp : p ∈ s.Values ∪ E) :
    Kept s (s.setValue i (some p)) E name (s.str p) true where
  inv := h.setValue i hp
  valued := .setValue hvalued p
  get _ := get_setValue_self hi _
  others _ hn := get_setValue_other (named_of_getIndex hi).2.1 (hn rfl) _
  outside _ _ := rfl
  named _ _ hj := (setValue_named s i _).2 hj

/-- A new variable takes a value. -/
theorem Added.setValue_kept (h : Added s s' E i name) (hvalued : s.Valued) (hnew : s.getIndex name = none) (hne : name ≠ [])
    (hp : p ∈ s'.Values ∪ E) : Kept s (s'.setValue i (some p)) E name (s'.str p) true where
  inv := h.inv.setValue i hp
  valued := .setValue (fun j hji => by
    rw [h.list j hji]
    exact hvalued j) p
  get _ := get_setValue_self (h.getIndex hnew hne) _
  others _ hn := (get_setValue_other h.named (hn rfl) _).trans (h.get (hn rfl))
  outside _ hp := h.others _ (.inr (.inr hp))
  named _ _ hj := (setValue_named s' i _).2 (h.named_keep hj)

/-- A new variable with an empty name. It is not found. -/
theorem Added.setValue_empty (h : Added s s' E i []) (hvalued : s.Valued) (hp : p ∈ s'.Values ∪ E) (value : List Byte) :
    Kept s (s'.setValue i (some p)) E [] value false where
  inv := h.inv.setValue i hp
  valued := .setValue (fun j hji => by
    rw [h.list j hji]
    exact hvalued j) p
  get hok := nomatch hok
  others n _ := by
    by_cases hn : n = []
    · subst hn
      rfl
    · exact (get_setValue_other h.named hn _).trans (h.get hn)
  outside _ hp := h.others _ (.inr (.inr hp))
  named _ _ hj := (setValue_named s' i _).2 (h.named_keep hj)

/-- **`var_set_no_copy`**, with a string that something else holds. The variable is set if it is found. -/
theorem Inv.setNoCopy (h : s.Inv E) (hvalued : s.Valued) (hname : (0 : Byte) ∉ name) (hp : p ∈ E) :
    Kept s (s.setNoCopy name (some p)).2 E name (s.str p) ((s.setNoCopy name (some p)).2.getIndex name).isSome ∧
      (name ≠ [] → (s.setNoCopy name (some p)).1 = ((s.setNoCopy name (some p)).2.getIndex name).isSome) := by
  have hlt : ¬ variableStoreSize ≤ p := by
    have hin := (h.pool.holds (.inr (.inr hp) : p ∈ s.Names ∪ (s.Values ∪ E))).2
    have hfits := h.pool.fits
    omega
  rw [Vars.setNoCopy, if_neg (by rwa [Option.all_some, decide_eq_true_iff])]
  cases hi : s.getIndex name with
  | some i =>
    have hindex : (s.setValue i (some p)).getIndex name = some i := (getIndex_congr fun j _ => setValue_named s i _).trans hi
    dsimp only
    rw [hindex]
    exact ⟨h.setValue_kept (fun j _ => hvalued j) hi (.inr hp), fun _ => rfl⟩
  | none =>
    dsimp only
    cases hnew : s.newVar name with
    | none =>
      dsimp only
      rw [hi]
      exact ⟨.refl h hvalued _ _, fun _ => rfl⟩
    | some r =>
      obtain ⟨i, s₁⟩ := r
      have hadded := h.newVar hname hnew
      dsimp only
      by_cases hne : name = []
      · subst hne
        exact ⟨hadded.setValue_empty hvalued (.inr hp) _, fun h => absurd rfl h⟩
      · have hindex : (s₁.setValue i (some p)).getIndex name = some i :=
          (getIndex_congr fun j _ => setValue_named s₁ i _).trans (hadded.getIndex hi hne)
        rw [hindex, ← hadded.others p (.inr (.inr hp))]
        exact ⟨hadded.setValue_kept hvalued hi hne (.inr hp), fun _ => rfl⟩

/-- The place of a new value is not given out any more, when there has been none for the name. -/
def StopsHalfway (s : Vars) (name value : List Byte) : Prop :=
  s.getIndex name = none ∧ s.actpos + (name.length + 1) ≤ variableStoreSize ∧
    variableStoreSize < s.actpos + (name.length + 1) + (value.length + 1) ∧ saneName name ∧ s.getFreeVar.isSome

/-- The old value is written over, and another variable or something else holds it. -/
def Overwrites (s : Vars) (E : Set Nat) (name value : List Byte) : Prop :=
  ∃ i p, s.getIndex name = some i ∧ (s.list i).value = some p ∧ value.length ≤ (s.str p).length ∧ s.str p ≠ value ∧
    (p ∈ E ∨ ∃ j, j ≠ i ∧ (s.list j).name.isSome ∧ (s.list j).value = some p)

/-- A copy of the value in a new place. -/
theorem Inv.copy_kept (h : s.Inv E) (hvalued : ∀ j, j ≠ i → (s.list j).name.isSome → (s.list j).value.isSome) {value : List Byte}
    (hvalue : (0 : Byte) ∉ value) (hcopy : s.copy value = some (p, s'))
    (hi : s.getIndex name = some i) : Kept s (s'.setValue i (some p)) E name value true := by
  have hcopied := h.copy hvalue hcopy
  have hvalued' : ∀ j, j ≠ i → (s'.list j).name.isSome → (s'.list j).value.isSome := by
    rw [hcopied.list]
    exact hvalued
  have hindex : s'.getIndex name = some i := (getIndex_congr fun j _ => hcopied.named j name).trans hi
  have hkept := hcopied.inv.setValue_kept hvalued' hindex (.inr (.inl rfl))
  rw [hcopied.str] at hkept
  refine ⟨hkept.inv.mono (Set.subset_insert p E), hkept.valued, hkept.get, fun n hn => (hkept.others n hn).trans (hcopied.get n),
    fun q hq => ?_,
    fun j n hj => hkept.named j n ((hcopied.named j n).2 hj)⟩
  exact (hkept.outside q (.inr hq)).trans (hcopied.others q (.inr (.inr hq)))

/-- A value that is not longer, over the old one. -/
theorem Inv.strcpy_kept (h : s.Inv E) (hvalued : s.Valued) {value : List Byte} (hvalue : (0 : Byte) ∉ value) (hi : s.getIndex name = some i)
    (hp : (s.list i).value = some p) (hlen : value.length ≤ (s.str p).length) (hover : ¬ s.Overwrites E name value) :
    Kept s (s.strcpy p value) E name value true := by
  have hin : p ∈ s.Names ∪ (s.Values ∪ E) := .inr (.inl ⟨i, hp⟩)
  have hother (q : Nat) (hq : q ∈ s.Names ∪ (s.Values ∪ E)) (hne : q ≠ p) : (s.strcpy p value).str q = s.str q :=
    h.pool.overwrite_other hin hlen hq hne
  have hself : (s.strcpy p value).str p = value := h.pool.overwrite_self hin hlen hvalue
  have hsame (hshared : p ∈ E ∨ ∃ j, j ≠ i ∧ (s.list j).name.isSome ∧ (s.list j).value = some p) : (s.strcpy p value).str p = s.str p := by
    rw [hself]
    exact (by_contra fun hne => hover ⟨i, p, hi, hp, hlen, hne, hshared⟩ : s.str p = value).symm
  have hnamed : ∀ j n, (s.strcpy p value).Named j n ↔ s.Named j n := by
    intro j n
    refine exists_congr fun a => and_congr_right fun ha => ?_
    rw [hother a (.inl ⟨j, ha⟩) fun hap => h.distinct a ⟨j, ha⟩ (.inl ⟨i, hap ▸ hp⟩)]
  refine ⟨⟨h.pool.overwrite hin hlen hvalue, h.distinct⟩, hvalued, fun _ => ?_, fun n hn => ?_, fun q hq => ?_,
    fun j n hj => (hnamed j n).2 hj⟩
  · have hindex : (s.strcpy p value).getIndex name = some i := (getIndex_congr fun j _ => hnamed j name).trans hi
    rw [get_of_getIndex hindex, show ((s.strcpy p value).list i).value = some p from hp, Option.map_some, hself]
  · refine get_congr (fun j _ => hnamed j n) fun j _ hj => ?_
    have hji : j ≠ i := fun hji => hn rfl ((hji ▸ hj : s.Named i n).eq (named_of_getIndex hi).2.1)
    show (s.list j).value.map _ = _
    cases hq : (s.list j).value with
    | none => rfl
    | some q =>
      by_cases hqp : q = p
      · obtain ⟨a, ha, -⟩ := hj
        rw [hqp] at hq ⊢
        exact congrArg some (hsame (.inr ⟨j, hji, by rw [ha]; rfl, hq⟩))
      · exact congrArg some (hother q (.inr (.inl ⟨j, hq⟩)) hqp)
  · by_cases hqp : q = p
    · rw [hqp]
      exact hsame (.inl (hqp ▸ hq))
    · exact hother q (.inr (.inr hq)) hqp

theorem copy_eq_none {text : List Byte} (h : s.copy text = none) : variableStoreSize < s.actpos + (text.length + 1) := by
  unfold Vars.copy allocMem at h
  split at h
  next hroom => omega
  next => cases h

theorem newVar_room (h : s.newVar name = some (i, s')) :
    saneName name ∧ s.getFreeVar.isSome ∧ s.actpos + (name.length + 1) ≤ variableStoreSize ∧ s'.actpos = s.actpos + (name.length + 1) := by
  unfold Vars.newVar at h
  split at h
  · cases h
  next hsane =>
    obtain ⟨k, hk, h⟩ := Option.bind_eq_some_iff.1 h
    obtain ⟨⟨a, s₁⟩, hcopy, h⟩ := Option.bind_eq_some_iff.1 h
    obtain ⟨-, rfl⟩ := Prod.mk.inj (Option.some.inj h)
    unfold Vars.copy allocMem at hcopy
    split at hcopy
    · cases hcopy
    next hroom =>
      obtain ⟨-, rfl⟩ := Prod.mk.inj (Option.some.inj hcopy)
      exact ⟨not_not.1 hsane, by rw [hk]; rfl, by omega, rfl⟩

/-- **`var_set`**, unless it stops halfway or writes over a value that is shared. -/
theorem Inv.set (h : s.Inv E) (hvalued : s.Valued) {value : List Byte} (hname : (0 : Byte) ∉ name) (hvalue : (0 : Byte) ∉ value)
    (hne : name ≠ [])
    (hhalfway : ¬ s.StopsHalfway name value) (hover : ¬ s.Overwrites E name value) :
    ∃ ok s', s.set name value = some (ok, s') ∧ Kept s s' E name value ok := by
  unfold Vars.set
  cases hi : s.getIndex name with
  | none =>
    dsimp only
    cases hnew : s.newVar name with
    | none => exact ⟨false, s, rfl, .refl h hvalued _ _⟩
    | some r =>
      obtain ⟨i, s₁⟩ := r
      have hadded := h.newVar hname hnew
      obtain ⟨hsane, hfree, hroom, hactpos⟩ := newVar_room hnew
      dsimp only
      cases hcopy : s₁.copy value with
      | none =>
        have hfull := copy_eq_none hcopy
        rw [hactpos] at hfull
        exact absurd ⟨hi, hroom, hfull, hsane, hfree⟩ hhalfway
      | some r =>
        obtain ⟨p, s₂⟩ := r
        have hvalued₁ : ∀ j, j ≠ i → (s₁.list j).name.isSome → (s₁.list j).value.isSome := fun j hji => by
          rw [hadded.list j hji]
          exact hvalued j
        have hkept := hadded.inv.copy_kept hvalued₁ hvalue hcopy (hadded.getIndex hi hne)
        refine ⟨true, _, rfl, hkept.inv, hkept.valued, hkept.get, fun n hn => ?_, fun q hq => ?_,
          fun j n hj => hkept.named j n (hadded.named_keep hj)⟩
        · exact (hkept.others n hn).trans (hadded.get (hn rfl))
        · exact (hkept.outside q hq).trans (hadded.others q (.inr (.inr hq)))
  | some i =>
    dsimp only
    cases hp : (s.list i).value with
    | none =>
      obtain ⟨-, ⟨a, ha, -⟩, -⟩ := named_of_getIndex hi
      have hsome := hvalued i (by rw [ha]; rfl)
      rw [hp] at hsome
      cases hsome
    | some p =>
      dsimp only
      split
      next hlen => exact ⟨true, _, rfl, h.strcpy_kept hvalued hvalue hi hp hlen hover⟩
      next =>
        cases hcopy : s.copy value with
        | none => exact ⟨false, s, rfl, .refl h hvalued _ _⟩
        | some r =>
          obtain ⟨q, s₁⟩ := r
          exact ⟨true, _, rfl, h.copy_kept (fun j _ => hvalued j) hvalue hcopy hi⟩

end Vars

end TrustedGrub.Builtins
