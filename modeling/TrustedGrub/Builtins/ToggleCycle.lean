import TrustedGrub.Builtins.ToggleTable

/-!
# Toggles go round

Every run of keys, lines of `toggle` and lines of `set`: a key goes round the blocks of its definition, and a
line that is refused leaves the toggles and the variables.
-/

namespace TrustedGrub.Builtins
open Fips180 (Byte)
open Disk (GrubError isspace safeParseMaxint)

namespace State
variable {s s₀ s₁ s' : State} {key : Int} {b : Block} {B : List Block} {c : Nat}

/-! ## Lines -/

/-- The keys whose blocks a line selects, as far as it is well formed. -/
def selectedKeys : Nat → List Byte → List Int
  | 0, _ => []
  | _, [] => []
  | fuel + 1, k :: text =>
    k.toInt ::
      match safeParseMaxint text.tail with
      | .error _ => []
      | .ok (_, rest) => selectedKeys fuel (rest.dropWhile isspace)

/-- The keys whose toggles a line defines or selects. -/
def lineKeys (s : State) : Nat → List Byte → List Int
  | 0, _ => []
  | fuel + 1, text =>
    match commandLine text with
    | none => []
    | some (command, rest) =>
      if command = setText then ((cString rest).take 1).map BitVec.toInt
      else if command = selectText then selectedKeys ((cString rest).length + 1) (cString rest)
      else if command = triggerText then
        match s.triggered rest with
        | some (.ok (some text)) => s.lineKeys fuel text
        | _ => []
      else []

/-- Where a line that selects blocks is refused, its first selection is. -/
def MeetsSelect (s : State) (text : List Byte) : Prop :=
  ∀ k rest, text = k :: rest → ∀ s' err, toggleSelect (text.length + 1) s text = some (some err, s') → s.Refuses k rest

/-- The condition on a line, also on one behind a trigger. -/
def MeetsLine (s : State) : Nat → List Byte → Prop
  | 0, _ => True
  | fuel + 1, text =>
    match commandLine text with
    | none => True
    | some (command, rest) =>
      if command = setText then s.MeetsSet (cString rest)
      else if command = selectText then s.MeetsSelect (cString rest)
      else if command = triggerText then
        match s.triggered rest with
        | some (.ok (some text)) => s.MeetsLine fuel text
        | _ => True
      else True

/-- The table stays in order, and the toggles of the keys that are not named. -/
structure Passes (s s' : State) (keys : List Int) : Prop where
  tidy : s'.Tidy
  defines : ∀ key B c, key ∉ keys → s.Defines key B c → s'.Defines key B c

/-- Nothing has changed for the toggles and the variables. -/
structure Untouched (s s' : State) : Prop where
  tidy : s'.Tidy
  get : s'.get = s.get
  defines : ∀ key B c, s.Defines key B c → s'.Defines key B c

theorem Untouched.refl (h : s.Tidy) : Untouched s s := ⟨h, rfl, fun _ _ _ hkey => hkey⟩

theorem Untouched.passes (h : Untouched s s') (keys : List Int) : Passes s s' keys := ⟨h.tidy, fun key B c _ => h.defines key B c⟩

/-- The toggles of other keys stay. -/
theorem Others.passes {keys : List Int} (htidy : s'.Tidy) (h : Others s s' (s.findSlot key)) (hin : key ∈ keys) : Passes s s' keys := by
  refine ⟨htidy, fun key' B c hkey' hdefines => h.defines ?_ hdefines⟩
  cases hslot : s.findSlot key' with
  | none => exact .inl rfl
  | some slot =>
    refine .inr fun hsame => hkey' ?_
    have hkey := (findSlot_some hsame.symm).2
    rw [(findSlot_some hslot).2] at hkey
    rwa [hkey]

/-- **Selections**, one after the other. -/
theorem toggleSelect_passes (fuel : Nat) {text : List Byte} {err : Option GrubError} (h : s.Tidy)
    (hrun : toggleSelect fuel s text = some (err, s')) :
    Passes s s' (selectedKeys fuel text) := by
  induction fuel, s, text using toggleSelect.induct with
  | case1 => cases hrun
  | case2 fuel s hpos =>
    rw [toggleSelect] at hrun
    · obtain ⟨-, rfl⟩ := Prod.mk.inj (Option.some.inj hrun)
      exact (Untouched.refl h).passes _
    · exact hpos
  | case3 fuel s k text hone =>
    rw [toggleSelect, hone] at hrun
    cases hrun
  | case4 fuel s k text s₁ hone =>
    rw [toggleSelect, hone] at hrun
    obtain ⟨-, rfl⟩ := Prod.mk.inj (Option.some.inj hrun)
    rw [selectOne_refused hone]
    exact (Untouched.refl h).passes _
  | case5 fuel s k text rest s₁ hone ih =>
    rw [toggleSelect, hone] at hrun
    obtain ⟨⟨bl, hparse⟩, -, htidy, hothers⟩ := selectOne_done h hone
    have hfirst : Passes s s₁ [k.toInt] := Others.passes htidy hothers (List.mem_singleton.2 rfl)
    have hrest := ih htidy hrun
    refine ⟨hrest.tidy, fun key B c hkey hdefines => ?_⟩
    rw [selectedKeys, hparse] at hkey
    obtain ⟨hk, hkeys⟩ := not_or.1 fun hin => hkey (List.mem_cons.2 hin)
    exact hrest.defines key B c hkeys (hfirst.defines key B c (fun hin => hk (List.mem_singleton.1 hin)) hdefines)

/-- Selections that are refused. -/
theorem toggleSelect_refused {text : List Byte} {err : GrubError} (h : s.Tidy) (hmeets : s.MeetsSelect text)
    (hrun : toggleSelect (text.length + 1) s text = some (some err, s')) : Untouched s s' := by
  cases text with
  | nil => cases hrun
  | cons k text =>
    have hrefuses := hmeets k text rfl s' err hrun
    rw [toggleSelect] at hrun
    split at hrun
    · cases hrun
    next hone =>
      obtain ⟨-, rfl⟩ := Prod.mk.inj (Option.some.inj hrun)
      rw [selectOne_refused hone]
      exact .refl h
    next hone => exact absurd hrefuses (selectOne_done h hone).2.1

theorem toggleSet_passes {text : List Byte} {err : Option GrubError} (h : s.Tidy) (htext : (0 : Byte) ∉ text) (hmeets : s.MeetsSet text)
    (hrun : s.toggleSet text = some (err, s')) : Passes s s' ((text.take 1).map BitVec.toInt) := by
  cases err with
  | none =>
    obtain ⟨k, d, t, B, rfl, -, htidy, -, hothers⟩ := toggleSet_done h htext hmeets hrun
    exact ⟨htidy, fun key B' c hkey => hothers key B' c fun hsame => hkey (List.mem_singleton.2 hsame)⟩
  | some err =>
    obtain ⟨htidy, hget, hdefines⟩ := toggleSet_refused h htext hmeets hrun
    exact Untouched.passes ⟨htidy, hget, hdefines⟩ _

/-- **A line of `toggle`.** -/
theorem toggleFunc_passes (fuel : Nat) {text : List Byte} {err : Option GrubError} (h : s.Tidy) (hmeets : s.MeetsLine fuel text)
    (hrun : toggleFunc fuel s text = some (err, s')) : Passes s s' (s.lineKeys fuel text) := by
  induction fuel generalizing text err with
  | zero => cases hrun
  | succ fuel ih =>
    rw [toggleFunc] at hrun
    rw [MeetsLine] at hmeets
    rw [lineKeys]
    cases hcommand : commandLine text with
    | none =>
      rw [hcommand] at hrun
      cases hrun
    | some r =>
      obtain ⟨command, rest⟩ := r
      rw [hcommand] at hrun hmeets
      dsimp only at hrun hmeets ⊢
      by_cases hset : command = setText
      · rw [if_pos hset] at hrun hmeets ⊢
        exact toggleSet_passes h (Packed.not_mem_text _) hmeets hrun
      · rw [if_neg hset] at hrun hmeets ⊢
        by_cases hselect : command = selectText
        · rw [if_pos hselect] at hrun hmeets ⊢
          exact toggleSelect_passes _ h hrun
        · rw [if_neg hselect] at hrun hmeets ⊢
          by_cases htrigger : command = triggerText
          · rw [if_pos htrigger] at hrun hmeets ⊢
            rcases hinner : s.triggered rest with _ | _ | _ | text'
            · rw [hinner] at hrun
              cases hrun
            · rw [hinner] at hrun
              obtain ⟨-, rfl⟩ := Prod.mk.inj (Option.some.inj hrun)
              exact (Untouched.refl h).passes _
            · rw [hinner] at hrun
              obtain ⟨-, rfl⟩ := Prod.mk.inj (Option.some.inj hrun)
              exact (Untouched.refl h).passes _
            · rw [hinner] at hrun hmeets
              obtain ⟨⟨err', s₁⟩, hline, hsame⟩ := Option.map_eq_some_iff.1 hrun
              obtain ⟨-, rfl⟩ := Prod.mk.inj hsame
              exact ih hmeets hline
          · rw [if_neg htrigger] at hrun
            obtain ⟨-, rfl⟩ := Prod.mk.inj (Option.some.inj hrun)
            exact (Untouched.refl h).passes _

/-- **A line that is refused.** -/
theorem toggleFunc_refused (fuel : Nat) {text : List Byte} {err : GrubError} (h : s.Tidy) (hmeets : s.MeetsLine fuel text)
    (hrun : toggleFunc fuel s text = some (some err, s')) : Untouched s s' := by
  cases fuel with
  | zero => cases hrun
  | succ fuel =>
    rw [toggleFunc] at hrun
    rw [MeetsLine] at hmeets
    cases hcommand : commandLine text with
    | none =>
      rw [hcommand] at hrun
      cases hrun
    | some r =>
      obtain ⟨command, rest⟩ := r
      rw [hcommand] at hrun hmeets
      dsimp only at hrun hmeets
      by_cases hset : command = setText
      · rw [if_pos hset] at hrun hmeets
        obtain ⟨htidy, hget, hdefines⟩ := toggleSet_refused h (Packed.not_mem_text _) hmeets hrun
        exact ⟨htidy, hget, hdefines⟩
      · rw [if_neg hset] at hrun hmeets
        by_cases hselect : command = selectText
        · rw [if_pos hselect] at hrun hmeets
          exact toggleSelect_refused h hmeets hrun
        · rw [if_neg hselect] at hrun
          split at hrun
          · split at hrun
            · cases hrun
            · obtain ⟨-, rfl⟩ := Prod.mk.inj (Option.some.inj hrun)
              exact .refl h
            · cases hrun
            · obtain ⟨r, -, hsame⟩ := Option.map_eq_some_iff.1 hrun
              cases hsame
          · obtain ⟨-, rfl⟩ := Prod.mk.inj (Option.some.inj hrun)
            exact .refl h

/-! ## Runs -/

/-- A key that is pressed, a line of `toggle`, and a line of `set`. -/
inductive Input where
  | press (key : Int)
  | line (fuel : Nat) (text : List Byte)
  | set (name value : CString)

namespace Input

def run (s : State) : Input → Option State
  | press key => (s.doKey key).map Prod.snd
  | line fuel text => (toggleFunc fuel s text).map Prod.snd
  | set name value => (s.set name.1 value.1).map fun (_, vars) => s.withVars vars

/-- The keys whose toggles may change. -/
def keys (s : State) : Input → List Int
  | press key => [key]
  | line fuel text => s.lineKeys fuel text
  | set _ _ => []

/-- The condition on the state before. -/
def Meets (s : State) : Input → Prop
  | press _ => True
  | line fuel text => s.MeetsLine fuel text
  | set name value => (Call.set name value).Sound s

end Input

/-- **One input.** -/
theorem Tidy.input (h : s.Tidy) (i : Input) (hmeets : i.Meets s) (hrun : i.run s = some s') : Passes s s' (i.keys s) := by
  cases i with
  | press key =>
    obtain ⟨⟨ok, s₁⟩, hpress, rfl⟩ := Option.map_eq_some_iff.1 hrun
    obtain ⟨htidy, hothers⟩ := doKey_tidy h hpress
    exact hothers.passes htidy (List.mem_singleton.2 rfl)
  | line fuel text =>
    obtain ⟨⟨err, s₁⟩, hline, rfl⟩ := Option.map_eq_some_iff.1 hrun
    exact toggleFunc_passes fuel h hmeets hline
  | set name value =>
    obtain ⟨⟨ok, vars⟩, hset, rfl⟩ := Option.map_eq_some_iff.1 hrun
    obtain ⟨hne, hhalfway, hover⟩ := hmeets
    obtain ⟨ok', vars', hset', hkept⟩ := h.fine.inv.set h.fine.valued name.2 value.2 hne hhalfway hover
    rw [hset] at hset'
    obtain ⟨-, rfl⟩ := Prod.mk.inj (Option.some.inj hset')
    have hothers : Others s (s.withVars vars) none := .of_frame (h.fine.withVars hkept).1 ⟨hkept.named, hkept.outside⟩ rfl rfl none
    refine ⟨hothers.tidy h fun slot hslot => (nomatch hslot), fun key B c _ hdefines => hothers.defines ?_ hdefines⟩
    obtain ⟨-, slot, hslot, -⟩ := hdefines
    rw [hslot]
    exact .inr (Option.some_ne_none slot)

/-- Inputs that meet a condition, one after the other. -/
abbrev Runs (P : State → Input → Prop) : State → State → Prop := Relation.ReflTransGen fun s s' => ∃ i : Input, P s i ∧ i.run s = some s'

theorem Tidy.runs (h : s.Tidy) (hrun : Runs (fun s i => i.Meets s) s s') : s'.Tidy := by
  induction hrun with
  | refl => exact h
  | tail _ hstep ih =>
    obtain ⟨i, hmeets, hinput⟩ := hstep
    exact (ih.input i hmeets hinput).tidy

/-- A run in which a key is pressed a number of times, and its toggle is not defined or selected otherwise. -/
inductive Pressed (P : State → Input → Prop) (key : Int) (s : State) : Nat → State → Prop where
  | start : Pressed P key s 0 s
  | press {n : Nat} {t t' : State} {ok : Bool} (before : Pressed P key s n t) (run : t.doKey key = some (ok, t')) :
      Pressed P key s (n + 1) t'
  | other {n : Nat} {t t' : State} (before : Pressed P key s n t) (i : Input) (met : P t i) (apart : key ∉ i.keys t)
    (run : i.run t = some t') :
      Pressed P key s n t'

/-- Every press goes to the next block. -/
theorem Defines.pressed {n : Nat} {t : State} (h : s.Tidy) (hdefines : s.Defines key B 0)
    (hpressed : Pressed (fun s i => i.Meets s) key s n t) :
    t.Tidy ∧ t.Defines key B (n % B.length) := by
  induction hpressed with
  | start =>
    rw [Nat.zero_mod]
    exact ⟨h, hdefines⟩
  | @press n t t' ok before run ih =>
    obtain ⟨htidy, hbefore⟩ := ih
    obtain ⟨t₁, b, hpress, -, -, hnext, htidy', -⟩ := doKey_done htidy hbefore
    rw [run] at hpress
    obtain ⟨-, rfl⟩ := Prod.mk.inj (Option.some.inj hpress)
    rw [Nat.mod_add_mod] at hnext
    exact ⟨htidy', hnext⟩
  | other before i met apart run ih =>
    obtain ⟨htidy, hbefore⟩ := ih
    have hpasses := htidy.input i met run
    exact ⟨hpasses.tidy, hpasses.defines _ _ _ apart hbefore⟩

/-- What the lines do in a state: after a definition that is accepted, the key goes round its blocks, and a line that is
refused leaves the toggles and the variables. -/
structure Toggled (P : State → Input → Prop) (s : State) : Prop where
  accepted : ∀ fuel text rest s', commandLine text = some (setText, rest) → P s (.line (fuel + 1) text) →
    toggleFunc (fuel + 1) s text = some (none, s') →
    ∃ k d t B, cString rest = k :: d :: t ∧ parseBlocks (blockTexts (d :: t)) = some B ∧ B ≠ [] ∧
      ∀ n u, Pressed P k.toInt s' n u → ∃ u' b,
        u.doKey k.toInt = some (true, u') ∧ B[(n + 1) % B.length]? = some b ∧ u'.get = assigned b u.get
  refused : ∀ fuel text err s', P s (.line fuel text) → toggleFunc fuel s text = some (some err, s') →
    s'.get = s.get ∧ ∀ key B c, s.Defines key B c → s'.Defines key B c

/-- The state at the start, without toggles. -/
structure AtStart (s : State) : Prop where
  unset : s.Unset
  used : s.togglesUsed = 0
  toggles : ∀ slot, (s.toggleData slot).key = 0 ∧ (s.toggleData slot).nrBlocks = 0

theorem AtStart.tidy (h : s.AtStart) : s.Tidy where
  fine := h.unset.fine
  used := h.used.le.trans (Nat.zero_le _)
  unused slot _ := h.toggles slot
  cycles slot hslot := by
    rw [h.used] at hslot
    exact absurd hslot (Nat.not_lt_zero slot)

/-- **Every run of inputs.** -/
theorem toggles_cycle (h₀ : s₀.AtStart) (hrun : Runs (fun s i => i.Meets s) s₀ s) : Toggled (fun s i => i.Meets s) s := by
  have htidy := h₀.tidy.runs hrun
  refine ⟨fun fuel text rest s' hcommand hmeets hdone => ?_, fun fuel text err s' hmeets hrefused => ?_⟩
  · have hmeets' : s.MeetsLine (fuel + 1) text := hmeets
    rw [MeetsLine, hcommand] at hmeets'
    rw [toggleFunc, hcommand] at hdone
    obtain ⟨k, d, t, B, htext, hB, hafter, hdefines, -⟩ := toggleSet_done htidy (Packed.not_mem_text _) hmeets' hdone
    refine ⟨k, d, t, B, htext, hB, hdefines.1, fun n u hpressed => ?_⟩
    obtain ⟨hu, hcurrent⟩ := hdefines.pressed hafter hpressed
    obtain ⟨u', b, hpress, hb, hget, -⟩ := doKey_done hu hcurrent
    rw [Nat.mod_add_mod] at hb
    exact ⟨u', b, hpress, hb, hget⟩
  · obtain ⟨-, hget, hdefines⟩ := toggleFunc_refused fuel htidy hmeets hrefused
    exact ⟨hget, hdefines⟩

/-! ### A key with two blocks -/

theorem blank_atStart : blank.AtStart := ⟨blank_unset, rfl, fun _ => ⟨rfl, rfl⟩⟩

theorem blank_clear (slot : Nat) (B : List Block) : blank.Clear slot B :=
  ⟨fun _ _ _ _ => Nat.zero_le _, fun _ _ _ _ _ _ hshares => nomatch hshares.1⟩

/-- `k {a=1}{a=2}` -/
def twoBlocks : List Byte := [0x6B, 0x20, 0x7B, 0x61, 0x3D, 0x31, 0x7D, 0x7B, 0x61, 0x3D, 0x32, 0x7D]

theorem toggleSet_twoBlocks : (blank.toggleSet twoBlocks).map Prod.fst = some none := by
  decide +kernel

theorem toggles_cycle_twoBlocks :
    ∃ s' u', toggleFunc 1 blank (setText ++ 0x20 :: twoBlocks) = some (none, s') ∧ s'.doKey 0x6B = some (true, u') ∧
    u'.get [0x61] = some [0x32] := by
  have hcommand : commandLine (setText ++ 0x20 :: twoBlocks) = some (setText, twoBlocks) := by decide
  have htext : cString twoBlocks = twoBlocks := by decide
  obtain ⟨⟨err, s'⟩, hset, rfl⟩ := Option.map_eq_some_iff.1 toggleSet_twoBlocks
  have hline : toggleFunc 1 blank (setText ++ 0x20 :: twoBlocks) = some (none, s') := by
    rw [toggleFunc, hcommand]
    show blank.toggleSet (cString twoBlocks) = _
    rw [htext, hset]
  have hmeets : blank.MeetsLine 1 (setText ++ 0x20 :: twoBlocks) := by
    rw [MeetsLine, hcommand]
    show blank.MeetsSet (cString twoBlocks)
    rw [htext]
    refine fun k d t slot s₁ _ _ => ⟨fun _ B _ _ => blank_clear slot B, fun s₂ err hrefused => ?_⟩
    rw [hset] at hrefused
    cases hrefused
  obtain ⟨k, d, t, B, hkey, hB, -, hpresses⟩ := (toggles_cycle blank_atStart .refl).accepted 0 _ _ s' hcommand hmeets hline
  rw [htext] at hkey
  cases hkey
  have hparse : parseBlocks (blockTexts (twoBlocks.drop 1)) = some [[([0x61], [0x31])], [([0x61], [0x32])]] := by decide +kernel
  obtain rfl := Option.some.inj (hB.symm.trans hparse)
  obtain ⟨u', b, hpress, hb, hget⟩ := hpresses 0 s' .start
  obtain rfl : [([0x61], [0x32])] = b := Option.some.inj hb
  refine ⟨s', u', hline, hpress, ?_⟩
  rw [hget]
  show Function.update s'.get [0x61] (some [0x32]) [0x61] = _
  exact Function.update_self _ _ _

/-- `set k {a=1,b=2}` -/
def defineAB : List Byte := setText ++ [0x20, 0x6B, 0x20, 0x7B, 0x61, 0x3D, 0x31, 0x2C, 0x62, 0x3D, 0x32, 0x7D]

/-- `k {b=1}` -/
def defineB : List Byte := [0x6B, 0x20, 0x7B, 0x62, 0x3D, 0x31, 0x7D]

/-- The second definition keeps the value of the first assignment, for the other variable. -/
theorem defineAB_defineB : (((toggleFunc 1 blank defineAB).bind fun r => toggleFunc 1 r.2 (setText ++ 0x20 :: defineB)).bind fun r =>
    (r.2.doKey 0x6B).map fun u => (r.1, u.2.get [0x62])) = some (none, some [0x32]) := by
  decide +kernel

theorem toggles_shared : ¬ ∀ s₀ s : State, s₀.AtStart → Runs (fun _ _ => True) s₀ s → Toggled (fun _ _ => True) s := by
  intro hall
  obtain ⟨⟨err, s₂⟩, hlines, hafter⟩ := Option.bind_eq_some_iff.1 defineAB_defineB
  obtain ⟨⟨err₁, s₁⟩, hfirst, hsecond⟩ := Option.bind_eq_some_iff.1 hlines
  obtain ⟨⟨ok, u⟩, hpress, hvalue⟩ := Option.map_eq_some_iff.1 hafter
  obtain ⟨rfl, hb⟩ : err = none ∧ u.get [0x62] = some [0x32] := Prod.mk.inj hvalue
  have hrun : Runs (fun _ _ => True) blank s₁ := .single ⟨.line 1 defineAB, trivial, congrArg (Option.map Prod.snd) hfirst⟩
  have hcommand : commandLine (setText ++ 0x20 :: defineB) = some (setText, defineB) := by decide
  obtain ⟨k, d, t, B, hkey, hB, -, hpresses⟩ := (hall blank s₁ blank_atStart hrun).accepted 0 _ _ s₂ hcommand trivial hsecond
  have htext : cString defineB = defineB := by decide
  rw [htext] at hkey
  cases hkey
  have hparse : parseBlocks (blockTexts (defineB.drop 1)) = some [[([0x62], [0x31])]] := by decide +kernel
  obtain rfl := Option.some.inj (hB.symm.trans hparse)
  obtain ⟨u', b, hpress', hblock, hget⟩ := hpresses 0 s₂ .start
  obtain rfl : [([0x62], [0x31])] = b := Option.some.inj hblock
  obtain ⟨-, rfl⟩ := Prod.mk.inj (Option.some.inj (hpress.symm.trans hpress'))
  rw [hget] at hb
  have hset : assigned [([0x62], [0x31])] s₂.get [0x62] = some [0x31] := by
    show Function.update s₂.get [0x62] (some [0x31]) [0x62] = _
    exact Function.update_self _ _ _
  exact absurd (hset.symm.trans hb) (by decide)

end State

end TrustedGrub.Builtins
