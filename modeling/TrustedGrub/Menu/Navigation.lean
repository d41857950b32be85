import TrustedGrub.Menu.Search
import TrustedGrub.Menu.Shortcuts

/-!
# The bar stays in the menu

The two numbers of the bar, and the keys that change them or the number of the entries. In a terminal that is not dumb they
are in step with each other; in a dumb one, a page down and `d` do not look at where the bar is.
-/

namespace TrustedGrub.Menu
variable {dumb : Bool} {n i current direction found : Int} {b : Bar} {c : Nat} {s s' : RunMenu} {k : Key} {next : Next}

/-- The bar is on an entry, and in the window. -/
structure Bar.OnEntry (dumb : Bool) (n : Int) (b : Bar) : Prop where
  firstEntry : 0 ≤ b.firstEntry
  entryno : 0 ≤ b.entryno
  entry : b.firstEntry + b.entryno < n
  window : b.firstEntry = 0 ∨ b.firstEntry + 12 ≤ n
  line : dumb = false → b.entryno ≤ 11

/-- The bar is on an entry, wherever the window is. -/
def Bar.Selects (n : Int) (b : Bar) : Prop := 0 ≤ b.entryno ∧ b.entry < n

/-- A page down from here is behind the last entry. -/
def Bar.PastEnd (n : Int) (b : Bar) : Prop := b.firstEntry + 23 < n ∧ n ≤ b.entry + 12

/-- There is no other line to be on when this one is removed, or the bar is on the last of so many that nothing moves. -/
def Bar.Removed (n : Int) (b : Bar) : Prop := n = 1 ∨ b.firstEntry ≠ 0 ∧ 12 + b.firstEntry < n ∧ b.entry + 1 = n

/-! ## The bar -/

theorem Bar.OnEntry.selects (h : b.OnEntry dumb n) : b.Selects n := ⟨h.entryno, h.entry⟩

theorem setBarTo_onEntry (dumb : Bool) (hlow : 0 ≤ i) (hhigh : i < n) : (setBarTo n i).OnEntry dumb n := by
  unfold setBarTo
  split
  · constructor <;> intros <;> dsimp only <;> omega
  · split
    · constructor <;> intros <;> dsimp only <;> omega
    · constructor <;> intros <;> dsimp only <;> omega

/-- When a menu is entered, or its terminal is another one. -/
theorem Bar.OnEntry.settle (h : b.OnEntry dumb n) (dumb' : Bool) : (settle dumb' b).OnEntry dumb' n := by
  obtain ⟨hfirst, hline, hentry, hwindow, -⟩ := h
  unfold Menu.settle
  split
  next hlow => constructor <;> intros <;> dsimp only <;> omega
  next hshown =>
    refine ⟨hfirst, hline, hentry, hwindow, fun hdumb => Int.not_lt.1 fun hlow => hshown ⟨?_, hlow⟩⟩
    rw [hdumb]
    exact Bool.false_ne_true

theorem settle_selects (dumb : Bool) (n : Int) (b : Bar) : (settle dumb b).Selects n ↔ b.Selects n := by
  unfold settle Bar.Selects Bar.entry
  split
  next hlow =>
    dsimp only
    omega
  next => exact Iff.rfl

theorem Bar.OnEntry.up (h : b.OnEntry dumb n) : (up dumb b).OnEntry dumb n := by
  obtain ⟨hfirst, hline, hentry, hwindow, hshown⟩ := h
  unfold Menu.up
  split
  · split
    · constructor <;> grind
    · constructor <;> assumption
  · split
    · constructor <;> grind
    · split
      · constructor <;> grind
      · constructor <;> assumption

theorem Bar.OnEntry.down (h : b.OnEntry dumb n) (hnext : b.firstEntry + b.entryno + 1 < n) : (down dumb n b).OnEntry dumb n := by
  obtain ⟨hfirst, hline, hentry, hwindow, hshown⟩ := h
  unfold Menu.down
  split
  · constructor <;> grind
  · split
    · constructor <;> grind
    · split
      · constructor <;> grind
      · constructor <;> assumption

theorem Bar.OnEntry.pageUp (h : b.OnEntry dumb n) : (pageUp b).OnEntry dumb n := by
  obtain ⟨hfirst, hline, hentry, hwindow, hshown⟩ := h
  unfold Menu.pageUp
  split
  · constructor <;> grind
  · split
    · constructor <;> grind
    · split
      · constructor <;> grind
      · constructor <;> assumption

theorem Bar.OnEntry.pageDown (h : b.OnEntry dumb n) (hin : ¬ b.PastEnd n) : (pageDown n b).OnEntry dumb n := by
  obtain ⟨hfirst, hline, hentry, hwindow, hshown⟩ := h
  unfold Bar.PastEnd Bar.entry at hin
  unfold Menu.pageDown
  split
  · split
    · constructor <;> grind
    · constructor <;> grind
  · split
    · constructor <;> grind
    · constructor <;> assumption

/-- The page that follows is shown in whole, but the bar is behind it. -/
theorem pageDown_pastEnd (h : b.PastEnd n) : ¬ (pageDown n b).Selects n := by
  obtain ⟨hpage, hpast⟩ := h
  have hgo : b.firstEntry + 12 < n := by omega
  unfold pageDown Bar.Selects
  rw [if_pos hgo, if_pos hpage]
  unfold Bar.entry at hpast ⊢
  dsimp only
  omega

/-- **The keys that move the bar.** -/
theorem Bar.OnEntry.moveBar (h : b.OnEntry dumb n) {c : Nat} (hin : ¬ (c = 3 ∧ b.PastEnd n)) : (moveBar dumb n c b).OnEntry dumb n := by
  unfold Menu.moveBar
  split
  next => exact h.up
  next =>
    split
    next hdown => exact h.down hdown.2
    next =>
      split
      next => exact h.pageUp
      next =>
        split
        next hpage => exact h.pageDown fun hpast => hin ⟨hpage, hpast⟩
        next => exact h

/-! ## The searches -/

theorem searchLoop_range {text : Int → List Char} {buf : List Char} {passes t : Nat} (hdir : direction = 1 ∨ direction = -1) (hn : 0 < n)
    (h : searchLoop text buf n current direction passes (around n current direction t) = some found) :
    found = -1 ∨ 0 ≤ found ∧ found < n := by
  induction passes generalizing t with
  | zero => cases h
  | succ passes ih =>
    have hnext := @around_succ n current direction hn hdir t
    rw [searchLoop] at h
    dsimp only at h hnext
    rw [hnext] at h
    split at h
    next =>
      obtain rfl := Option.some.inj h
      exact .inr (around_range hn t)
    next =>
      split at h
      next => exact ih h
      next => exact .inl (Option.some.inj h).symm

/-- The state of a menu with its bar on an entry. -/
def RunMenu.OnEntry (s : RunMenu) : Prop := s.bar.OnEntry s.dumb s.numEntries

/-- What most steps leave as it is. -/
structure Within (s s' : RunMenu) : Prop where
  numEntries : s'.numEntries = s.numEntries
  dumb : s'.dumb = s.dumb
  main : s'.main = s.main
  bar : s'.bar = s.bar ∨ s'.OnEntry

theorem Within.refl (s : RunMenu) : Within s s := ⟨rfl, rfl, rfl, .inl rfl⟩

theorem Within.onEntry (h : Within s s') (hon : s.OnEntry) : s'.OnEntry := by
  obtain hbar | hbar := h.bar
  · unfold RunMenu.OnEntry
    rw [hbar, h.dumb, h.numEntries]
    exact hon
  · exact hbar

theorem RunMenu.OnEntry.range (h : s.OnEntry) : 0 ≤ s.bar.entry ∧ s.bar.entry < s.numEntries :=
  ⟨Int.add_nonneg h.firstEntry h.entryno, h.entry⟩

theorem searchMenu_within (hon : s.OnEntry) {backwards advance : Bool} (h : s.searchMenu k backwards advance = some (found, s')) :
    Within s s' := by
  obtain ⟨hlow, hhigh⟩ := hon.range
  have hn := Int.lt_of_le_of_lt hlow hhigh
  rw [searchMenu_eq hlow hhigh] at h
  obtain ⟨found, hloop, hfound⟩ := Option.map_eq_some_iff.1 h
  obtain ⟨rfl, rfl⟩ := Prod.mk.inj hfound
  have hfrom := searchFrom_range hn s.bar.entry backwards advance
  split
  next => exact .refl s
  next hfound =>
    have hrange := searchLoop_range (t := 0) (delta_cases backwards) hn ((congrArg _ (around_zero hfrom.1 hfrom.2)).trans hloop)
    obtain ⟨hlow, hhigh⟩ := hrange.resolve_left hfound
    exact ⟨rfl, rfl, rfl, .inr (setBarTo_onEntry s.dumb hlow hhigh)⟩

theorem searchAgain_within (hon : s.OnEntry) (h : s.searchAgain k = some s') : Within s s' := by
  unfold RunMenu.searchAgain at h
  split at h
  next =>
    obtain ⟨⟨found, s₁⟩, hsearch, rfl⟩ := Option.map_eq_some_iff.1 h
    exact searchMenu_within hon hsearch
  next =>
    split at h
    next =>
      obtain ⟨⟨found, s₁⟩, hsearch, rfl⟩ := Option.map_eq_some_iff.1 h
      exact searchMenu_within hon hsearch
    next =>
      obtain rfl := Option.some.inj h
      exact .refl s

/-- The searched text after a key. -/
def RunMenu.typeSearch (s : RunMenu) (k : Key) : RunMenu :=
  if k.c = 8 then if s.searchBuf = [] then { s with searchMode := false } else { s with searchBuf := s.searchBuf.dropLast }
  else if s.searchBuf.length < searchBufSize - 1 then { s with searchBuf := s.searchBuf ++ [(Char.ofNat k.c).toLower] }
  else s

theorem typeSearch_within (s : RunMenu) (k : Key) : Within s (s.typeSearch k) := by
  unfold RunMenu.typeSearch
  split
  · split
    · exact ⟨rfl, rfl, rfl, .inl rfl⟩
    · exact ⟨rfl, rfl, rfl, .inl rfl⟩
  · split
    · exact ⟨rfl, rfl, rfl, .inl rfl⟩
    · exact .refl s

theorem Within.trans {s'' : RunMenu} (h : Within s s') (h' : Within s' s'') : Within s s'' where
  numEntries := h'.numEntries.trans h.numEntries
  dumb := h'.dumb.trans h.dumb
  main := h'.main.trans h.main
  bar := by
    obtain hbar | hbar := h'.bar
    · obtain hbar' | hbar' := h.bar
      · exact .inl (hbar.trans hbar')
      · exact .inr (h'.onEntry hbar')
    · exact .inr hbar

/-- A key that is typed in the search mode. -/
theorem searchKey_typed (hend : ¬ (k.c = 0x0D ∨ k.c = 0x0A ∨ k.c = 27)) (hchar : ¬ (k.c ≠ 8 ∧ k.c < 0x20)) :
    s.searchKey k = if (s.typeSearch k).searchMode then
      ((s.typeSearch k).searchMenu k (s.typeSearch k).searchDirection false).map fun found =>
        (false, { found.2 with searchFound := found.1 })
    else some (false, s.typeSearch k) := by
  generalize hs₁ : s.typeSearch k = s₁
  unfold RunMenu.typeSearch at hs₁
  unfold RunMenu.searchKey
  rw [if_neg hend, if_neg hchar, hs₁]
  dsimp only
  split
  · cases s₁.searchMenu k s₁.searchDirection false with
    | none => rfl
    | some found => rfl
  · rfl

theorem searchKey_within (hon : s.OnEntry) {goes : Bool} (h : s.searchKey k = some (goes, s')) : Within s s' := by
  by_cases hend : k.c = 0x0D ∨ k.c = 0x0A ∨ k.c = 27
  · rw [RunMenu.searchKey, if_pos hend] at h
    obtain ⟨-, rfl⟩ := Prod.mk.inj (Option.some.inj h)
    exact ⟨rfl, rfl, rfl, .inl rfl⟩
  · by_cases hchar : k.c ≠ 8 ∧ k.c < 0x20
    · rw [RunMenu.searchKey, if_neg hend, if_pos hchar] at h
      obtain ⟨-, rfl⟩ := Prod.mk.inj (Option.some.inj h)
      exact ⟨rfl, rfl, rfl, .inl rfl⟩
    · have hsame := typeSearch_within s k
      rw [searchKey_typed hend hchar] at h
      split at h
      next =>
        obtain ⟨⟨found, s₁⟩, hsearch, hfound⟩ := Option.map_eq_some_iff.1 h
        obtain ⟨-, rfl⟩ := Prod.mk.inj hfound
        have hwithin := hsame.trans (searchMenu_within (hsame.onEntry hon) hsearch)
        exact ⟨hwithin.numEntries, hwithin.dumb, hwithin.main, hwithin.bar⟩
      next =>
        obtain ⟨-, rfl⟩ := Prod.mk.inj (Option.some.inj h)
        exact hsame

/-! ## The shortcuts -/

/-- The digits leave the bar on an entry, with one match or with none. -/
theorem shortcutLoop_onEntry {typed : List Char} {left j matched matched' : Nat} {b' : Bar} (hon : b.OnEntry dumb n)
    (hleft : (j + left : Nat) ≤ n)
    (h : shortcutLoop typed n left j matched b = some (matched', b')) : b'.OnEntry dumb n := by
  induction left generalizing j matched b with
  | zero =>
    obtain ⟨-, rfl⟩ := Prod.mk.inj (Option.some.inj h)
    exact hon
  | succ left ih =>
    rw [shortcutLoop] at h
    split at h
    next => cases h
    next =>
      split at h
      next =>
        split at h
        next => exact ih (setBarTo_onEntry dumb (Int.natCast_nonneg j) (by omega)) (by omega) h
        next =>
          obtain ⟨-, rfl⟩ := Prod.mk.inj (Option.some.inj h)
          exact hon
      next => exact ih hon (by omega) h

theorem shortcut_within (hon : s.OnEntry) (h : s.shortcut k = some (c, s')) : Within s s' := by
  unfold RunMenu.shortcut at h
  split at h
  next =>
    dsimp only at h
    split at h
    next => cases h
    next =>
      split at h
      next => cases h
      next hloop =>
        obtain ⟨-, rfl⟩ := Prod.mk.inj (Option.some.inj h)
        have hn := Int.lt_of_le_of_lt hon.range.1 hon.range.2
        have hall : ((0 + s.numEntries.toNat : Nat) : Int) ≤ s.numEntries := by omega
        exact ⟨rfl, rfl, rfl, .inr (shortcutLoop_onEntry hon hall hloop)⟩
  next =>
    obtain ⟨-, rfl⟩ := Prod.mk.inj (Option.some.inj h)
    exact ⟨rfl, rfl, rfl, .inl rfl⟩

/-! ## The keys -/

/-- The keys after which the bar is off. -/
def RunMenu.Loses (s : RunMenu) (c : Nat) : Prop :=
  c = 3 ∧ s.bar.PastEnd s.numEntries ∨ s.main = false ∧ c = 0x64 ∧ s.bar.Removed s.numEntries

theorem editLines_onEntry (hon : s.OnEntry) (hkeeps : ¬ (c = 0x64 ∧ s.bar.Removed s.numEntries)) : (s.editLines c).2.OnEntry := by
  obtain ⟨hfirst, hline, hentry, hwindow, hshown⟩ := hon
  unfold Bar.Removed Bar.entry at hkeeps
  unfold RunMenu.editLines
  split
  · split
    · constructor <;> grind
    · constructor <;> assumption
  · split
    · constructor <;> grind
    · split
      · constructor <;> grind
      · constructor <;> assumption

/-- The line under the bar is removed, and the bar stays where there is none. -/
theorem editLines_lost (hon : s.OnEntry) (hremoved : s.bar.Removed s.numEntries) :
    ¬ (s.editLines 0x64).2.bar.Selects (s.editLines 0x64).2.numEntries := by
  obtain ⟨hfirst, hline, hentry, hwindow, -⟩ := hon
  unfold Bar.Removed Bar.entry at hremoved
  unfold RunMenu.editLines Bar.Selects Bar.entry
  rw [if_pos rfl, if_pos (by omega)]
  grind

theorem command_onEntry (hon : s.OnEntry) (k : Key) (hkeeps : ¬ (s.main = false ∧ c = 0x64 ∧ s.bar.Removed s.numEntries)) :
    (s.command k c).state.OnEntry := by
  unfold RunMenu.command
  split
  · exact hon
  · split
    next =>
      split
      · exact hon
      · split
        · exact hon
        · split
          · exact hon
          · rw [(privileged_state s k c).1]
            exact hon
    next hmain =>
      have hedit := editLines_onEntry hon fun h => hkeeps ⟨Bool.eq_false_iff.2 hmain, h⟩
      generalize s.editLines c = edited at hedit ⊢
      obtain ⟨c', s₁⟩ := edited
      dsimp only
      split
      · exact hedit
      · split
        · exact hedit
        · rw [(privileged_state s₁ k c').1]
          exact hedit

/-- A key that neither leaves the menu nor boots. -/
theorem command_privileged (hc : c = 3 ∨ c = 0x64) (s : RunMenu) (k : Key) :
    s.command k c = if s.main then s.privileged k c else (s.editLines c).2.privileged k c := by
  have hedit : (s.editLines c).1 = c := by
    unfold RunMenu.editLines
    split
    · split <;> rfl
    · rw [if_neg (by omega), if_neg (by omega)]
  unfold RunMenu.command
  rw [if_neg (by omega)]
  split
  · rw [if_neg (by omega), if_neg (by omega), if_neg (by omega)]
  · generalize s.editLines c = edited at hedit ⊢
    obtain ⟨c', s₁⟩ := edited
    obtain rfl := hedit
    dsimp only
    rw [if_neg (by omega), if_neg (by omega)]

/-- A key that is neither a digit nor for the search. -/
theorem handle_plain (hagain : k.c ≠ 0x6E ∧ k.c ≠ 0x4E) (hdigit : ¬ k.IsDigit) :
    s.handle k = some (RunMenu.command { s with shortcutBuf := [], bar := moveBar s.dumb s.numEntries k.c s.bar } k k.c) := by
  have hshortcut : s.shortcut k = some (k.c, { s with shortcutBuf := [] }) := if_neg hdigit
  unfold RunMenu.handle
  rw [searchAgain_other hagain.1 hagain.2]
  dsimp only
  rw [hshortcut]

theorem shortcut_key (h : s.shortcut k = some (c, s')) : c = k.c ∨ c = 0x0A := by
  unfold RunMenu.shortcut at h
  split at h
  next =>
    dsimp only at h
    split at h
    next => cases h
    next =>
      split at h
      next => cases h
      next =>
        obtain ⟨rfl, -⟩ := Prod.mk.inj (Option.some.inj h)
        split
        · exact .inr rfl
        · exact .inl rfl
  next => exact .inl (Prod.mk.inj (Option.some.inj h)).1.symm

theorem loses_plain (hc : k.c = 3 ∨ k.c = 0x64) : (k.c ≠ 0x6E ∧ k.c ≠ 0x4E) ∧ ¬ k.IsDigit := by
  refine ⟨by omega, fun hdigit => ?_⟩
  obtain ⟨hlow, hhigh⟩ := hdigit
  omega

theorem moveBar_remove (hc : c = 0x64) (dumb : Bool) (n : Int) (b : Bar) : moveBar dumb n c b = b := by
  rw [moveBar, if_neg (by omega), if_neg (by omega), if_neg (by omega), if_neg (by omega)]

theorem moveBar_page (hc : c = 3) (dumb : Bool) (n : Int) (b : Bar) : moveBar dumb n c b = pageDown n b := by
  rw [moveBar, if_neg (by omega), if_neg (by omega), if_neg (by omega), if_pos hc]

theorem handle_onEntry (hon : s.OnEntry) (h : s.handle k = some next) (hkeeps : ¬ s.Loses k.c) : next.state.OnEntry := by
  obtain ⟨hpage, hremoved⟩ := not_or.1 hkeeps
  by_cases hkey : k.c = 3 ∨ k.c = 0x64
  · obtain ⟨hagain, hdigit⟩ := loses_plain hkey
    rw [handle_plain hagain hdigit] at h
    obtain rfl := Option.some.inj h
    have hmoved : RunMenu.OnEntry { s with shortcutBuf := [], bar := moveBar s.dumb s.numEntries k.c s.bar } :=
      Bar.OnEntry.moveBar hon hpage
    refine command_onEntry hmoved k fun hgone => hremoved ⟨hgone.1, hgone.2.1, ?_⟩
    rw [← moveBar_remove hgone.2.1 s.dumb s.numEntries s.bar]
    exact hgone.2.2
  · unfold RunMenu.handle at h
    split at h
    next => cases h
    next s₁ hagain =>
      split at h
      next => cases h
      next c s₂ hshortcut =>
        obtain rfl := Option.some.inj h
        have hagain := searchAgain_within hon hagain
        have hon₂ := (shortcut_within (hagain.onEntry hon) hshortcut).onEntry (hagain.onEntry hon)
        have hc := shortcut_key hshortcut
        have hmoved : RunMenu.OnEntry { s₂ with bar := moveBar s₂.dumb s₂.numEntries c s₂.bar } :=
          Bar.OnEntry.moveBar hon₂ fun hpage => by omega
        exact command_onEntry hmoved k fun hgone => by omega

/-- **A key that takes the bar off** does not leave the menu. -/
theorem handle_lost (hon : s.OnEntry) (h : s.handle k = some next) (hloses : s.Loses k.c) :
    ¬ next.state.bar.Selects next.state.numEntries ∧ ∀ s', next ≠ .boot s' := by
  have hkey : k.c = 3 ∨ k.c = 0x64 := hloses.imp And.left fun hgone => hgone.2.1
  obtain ⟨hagain, hdigit⟩ := loses_plain hkey
  rw [handle_plain hagain hdigit, command_privileged hkey] at h
  obtain rfl := Option.some.inj h
  obtain ⟨hc, hpast⟩ | ⟨hmain, hc, hremoved⟩ := hloses
  · have hedit (s₁ : RunMenu) : s₁.editLines k.c = (k.c, s₁) := by
      rw [RunMenu.editLines, if_neg (by omega), if_neg (by omega), if_neg (by omega)]
    rw [hedit, ite_self, (privileged_state _ k k.c).1, moveBar_page hc]
    exact ⟨pageDown_pastEnd hpast, (privileged_state _ k k.c).2⟩
  · have hon₁ : RunMenu.OnEntry { s with shortcutBuf := [] } := hon
    dsimp only
    rw [hmain, if_neg Bool.false_ne_true, (privileged_state _ k k.c).1, moveBar_remove hc, hc]
    exact ⟨editLines_lost hon₁ hremoved, (privileged_state _ k 0x64).2⟩

/-! ## Runs -/

/-- The keys at which the bar is lost: in the search mode only what is not typed. -/
def RunMenu.LosesKey (s : RunMenu) (k : Key) : Prop :=
  k.c = 3 ∧ s.bar.PastEnd s.numEntries ∨ s.searchMode = false ∧ s.main = false ∧ k.c = 0x64 ∧ s.bar.Removed s.numEntries

/-- An entry to fall back to that is none of this menu. -/
def Missing (n : Int) (fallback : Option Int) : Prop := ∃ i, fallback = some i ∧ ¬ (0 ≤ i ∧ i < n)

/-- **The events at which the bar is lost.** -/
def RunMenu.LosesBar (s : RunMenu) : MenuEvent → Prop
  | .key k => s.LosesKey k ∨ ∃ s', s.press k = some (.boot s') ∧ Missing s'.numEntries k.fallback
  | .expire fallback _ => Missing s.numEntries fallback

theorem startSearch_within (s : RunMenu) (k : Key) : Within s (s.startSearch k) := by
  unfold RunMenu.startSearch
  split
  · exact ⟨rfl, rfl, rfl, .inl rfl⟩
  · exact .refl s

theorem startSearch_loses (s : RunMenu) (k : Key) : (s.startSearch k).Loses k.c ↔ s.Loses k.c := by
  unfold RunMenu.startSearch
  split
  · rfl
  · rfl

/-- A key that ends the search mode and is handled like the others. -/
theorem searchKey_goes (h : s.searchKey k = some (true, s')) : k.c < 0x20 ∧ s' = { s with searchMode := false } := by
  by_cases hend : k.c = 0x0D ∨ k.c = 0x0A ∨ k.c = 27
  · rw [RunMenu.searchKey, if_pos hend] at h
    cases h
  · by_cases hchar : k.c ≠ 8 ∧ k.c < 0x20
    · rw [RunMenu.searchKey, if_neg hend, if_pos hchar] at h
      exact ⟨hchar.2, (Prod.mk.inj (Option.some.inj h)).2.symm⟩
    · rw [searchKey_typed hend hchar] at h
      split at h
      next =>
        obtain ⟨found, -, hfound⟩ := Option.map_eq_some_iff.1 h
        cases hfound
      next => cases h

theorem press_onEntry (hon : s.OnEntry) (h : s.press k = some next) (hkeeps : ¬ s.LosesKey k) : next.state.OnEntry := by
  unfold RunMenu.press at h
  split at h
  next hsearch =>
    split at h
    next => cases h
    next s₁ hkey =>
      obtain rfl := Option.some.inj h
      exact (searchKey_within hon hkey).onEntry hon
    next s₁ hkey =>
      obtain ⟨hlow, rfl⟩ := searchKey_goes hkey
      refine handle_onEntry (s := { s with searchMode := false }) hon h fun hlost => ?_
      obtain hpage | hgone := hlost
      · exact hkeeps (.inl hpage)
      · omega
  next hsearch =>
    refine handle_onEntry ((startSearch_within s k).onEntry hon) h fun hlost => hkeeps ?_
    exact ((startSearch_loses s k).1 hlost).imp_right fun hgone => ⟨Bool.eq_false_iff.2 hsearch, hgone⟩

theorem press_lost (hon : s.OnEntry) (h : s.press k = some next) (hloses : s.LosesKey k) :
    ¬ next.state.bar.Selects next.state.numEntries ∧ ∀ s', next ≠ .boot s' := by
  unfold RunMenu.press at h
  split at h
  next hsearch =>
    obtain ⟨hc, hpast⟩ : k.c = 3 ∧ s.bar.PastEnd s.numEntries := by
      refine hloses.resolve_right fun hgone => ?_
      rw [hsearch] at hgone
      exact Bool.noConfusion hgone.1
    have hkey : s.searchKey k = some (true, { s with searchMode := false }) := by
      rw [RunMenu.searchKey, if_neg (by omega), if_pos (by omega)]
    rw [hkey] at h
    exact handle_lost (s := { s with searchMode := false }) hon h (.inl ⟨hc, hpast⟩)
  next hsearch =>
    exact handle_lost ((startSearch_within s k).onEntry hon) h ((startSearch_loses s k).2 (hloses.imp_right And.right))

theorem restart_onEntry (hon : s.OnEntry) (dumb : Bool) : (s.restart dumb).OnEntry := Bar.OnEntry.settle hon dumb

theorem booted_onEntry (hon : s.OnEntry) {fallback : Option Int} (hin : ¬ Missing s.numEntries fallback) (dumb : Bool) :
    ((s.booted fallback).restart dumb).OnEntry := by
  cases fallback with
  | none => exact restart_onEntry hon dumb
  | some i =>
    obtain ⟨hlow, hhigh⟩ : 0 ≤ i ∧ i < s.numEntries := Classical.not_not.1 fun hout => hin ⟨i, rfl, hout⟩
    have hzero : Bar.OnEntry true s.numEntries ⟨0, i⟩ :=
      ⟨Int.le_refl 0, hlow, (Int.zero_add i).symm ▸ hhigh, .inl rfl, fun h => Bool.noConfusion h⟩
    exact hzero.settle dumb

theorem booted_lost {fallback : Option Int} (hout : Missing s.numEntries fallback) (dumb : Bool) :
    ¬ ((s.booted fallback).restart dumb).bar.Selects ((s.booted fallback).restart dumb).numEntries := by
  obtain ⟨i, rfl, hout⟩ := hout
  intro hselects
  obtain ⟨hlow, hhigh⟩ : Bar.Selects s.numEntries ⟨0, i⟩ := (settle_selects dumb _ _).1 hselects
  exact hout ⟨hlow, Int.zero_add i ▸ hhigh⟩

/-- **One event** keeps the bar on an entry, or it is one of those that lose it. -/
theorem step_onEntry (hon : s.OnEntry) {e : MenuEvent} (h : s.step e = some s') :
    (¬ s.LosesBar e → s'.OnEntry) ∧ (s.LosesBar e → ¬ s'.bar.Selects s'.numEntries) := by
  cases e with
  | expire fallback dumb =>
    obtain rfl := Option.some.inj h
    exact ⟨fun hin => booted_onEntry hon hin dumb, fun hout => booted_lost hout dumb⟩
  | key k =>
    obtain ⟨next, hpress, hresume⟩ := Option.bind_eq_some_iff.1 h
    have hkeeps := press_onEntry hon hpress
    have hlost := press_lost hon hpress
    cases next with
    | loop s₁ =>
      obtain rfl := Option.some.inj hresume
      refine ⟨fun hin => hkeeps fun hkey => hin (.inl hkey), fun hout => ?_⟩
      obtain hkey | ⟨s₂, hboot, -⟩ := hout
      · exact (hlost hkey).1
      · exact Next.noConfusion (Option.some.inj (hpress.symm.trans hboot))
    | restart s₁ =>
      obtain rfl := Option.some.inj hresume
      refine ⟨fun hin => restart_onEntry (hkeeps fun hkey => hin (.inl hkey)) _, fun hout hselects => ?_⟩
      obtain hkey | ⟨s₂, hboot, -⟩ := hout
      · exact (hlost hkey).1 ((settle_selects _ _ _).1 hselects)
      · exact Next.noConfusion (Option.some.inj (hpress.symm.trans hboot))
    | boot s₁ =>
      obtain rfl := Option.some.inj hresume
      refine ⟨fun hin => booted_onEntry (hkeeps fun hkey => hin (.inl hkey)) (fun hout => hin (.inr ⟨s₁, hpress, hout⟩)) _, fun hout => ?_⟩
      obtain hkey | ⟨s₂, hboot, hmissing⟩ := hout
      · exact absurd rfl ((hlost hkey).2 s₁)
      · obtain rfl := Next.boot.inj (Option.some.inj (hpress.symm.trans hboot))
        exact booted_lost hmissing _
    | leave s₁ => cases hresume

/-- No event loses the bar. -/
def RunMenu.KeepsBar (s : RunMenu) : List MenuEvent → Prop
  | [] => True
  | e :: es => ∀ s', s.step e = some s' → ¬ s.LosesBar e ∧ s'.KeepsBar es

/-- The bar is on an entry before each event and at the end. -/
def RunMenu.Stays (s : RunMenu) (events : List MenuEvent) : Prop := ∀ pre s', pre <+: events → s.run pre = some s' → s'.OnEntry

theorem stays_cons {e : MenuEvent} {events : List MenuEvent} (hon : s.OnEntry) :
    s.Stays (e :: events) ↔ ∀ s', s.step e = some s' → s'.Stays events := by
  constructor
  · intro h s₁ hstep pre s' hpre hrun
    refine h (e :: pre) s' ((List.cons_prefix_cons).2 ⟨rfl, hpre⟩) ?_
    rw [RunMenu.run, hstep]
    exact hrun
  · intro h pre s' hpre hrun
    cases pre with
    | nil =>
      obtain rfl := Option.some.inj hrun
      exact hon
    | cons e' pre =>
      obtain ⟨rfl, htail⟩ := List.cons_prefix_cons.1 hpre
      obtain ⟨s₁, hstep, hrun⟩ := Option.bind_eq_some_iff.1 hrun
      exact h s₁ hstep pre s' htail hrun

/-- The induction is on the events. -/
theorem stays_iff (hon : s.OnEntry) (events : List MenuEvent) : s.Stays events ↔ s.KeepsBar events := by
  induction events generalizing s with
  | nil =>
    refine iff_of_true (fun pre s' hpre hrun => ?_) trivial
    obtain rfl := List.prefix_nil.1 hpre
    obtain rfl := Option.some.inj hrun
    exact hon
  | cons e events ih =>
    rw [stays_cons hon]
    refine forall₂_congr fun s' hstep => ?_
    obtain ⟨hkeeps, hloses⟩ := step_onEntry hon hstep
    constructor
    · intro h
      have hon' := h [] s' List.nil_prefix rfl
      exact ⟨fun hlost => hloses hlost hon'.selects, (ih hon').1 h⟩
    · intro h
      exact (ih (hkeeps h.1)).2 h.2

/-! ## No key is lost -/

theorem searchMenu_isSome (hon : s.OnEntry) (hpasses : s.numEntries ≤ k.passes) (backwards advance : Bool) :
    ∃ found s', s.searchMenu k backwards advance = some (found, s') := by
  obtain ⟨hlow, hhigh⟩ := hon.range
  have hfrom := searchFrom_range (Int.lt_of_le_of_lt hlow hhigh) s.bar.entry backwards advance
  obtain ⟨found, hloop, -⟩ := @searchLoop_searched k.text s.searchBuf s.numEntries _ (delta backwards) k.passes 0 hfrom.1 hfrom.2
    (delta_cases backwards) (by omega) (by omega) fun u hu => absurd hu (Nat.not_lt_zero u)
  rw [around_zero hfrom.1 hfrom.2] at hloop
  rw [searchMenu_eq hlow hhigh, hloop]
  exact ⟨_, _, rfl⟩

theorem handle_isSome (hon : s.OnEntry) (hpasses : s.numEntries ≤ k.passes) (hdigit : ¬ k.IsDigit) : ∃ next, s.handle k = some next := by
  have hagain : ∃ s₁, s.searchAgain k = some s₁ := by
    obtain ⟨found, s₁, hforwards⟩ := searchMenu_isSome hon hpasses s.searchDirection true
    obtain ⟨found', s₂, hbackwards⟩ := searchMenu_isSome hon hpasses (!s.searchDirection) true
    unfold RunMenu.searchAgain
    rw [hforwards, hbackwards]
    split
    · exact ⟨_, rfl⟩
    · split
      · exact ⟨_, rfl⟩
      · exact ⟨_, rfl⟩
  obtain ⟨s₁, hagain⟩ := hagain
  have hshortcut : s₁.shortcut k = some (k.c, { s₁ with shortcutBuf := [] }) := if_neg hdigit
  unfold RunMenu.handle
  rw [hagain]
  dsimp only
  rw [hshortcut]
  exact ⟨_, rfl⟩

theorem searchKey_isSome (hon : s.OnEntry) (hpasses : s.numEntries ≤ k.passes) : ∃ goes s', s.searchKey k = some (goes, s') := by
  by_cases hend : k.c = 0x0D ∨ k.c = 0x0A ∨ k.c = 27
  · exact ⟨_, _, if_pos hend⟩
  · by_cases hchar : k.c ≠ 8 ∧ k.c < 0x20
    · exact ⟨_, _, (if_neg hend).trans (if_pos hchar)⟩
    · have hsame := typeSearch_within s k
      have hpasses : (s.typeSearch k).numEntries ≤ k.passes := hsame.numEntries.symm ▸ hpasses
      obtain ⟨found, s₁, hsearch⟩ := searchMenu_isSome (hsame.onEntry hon) hpasses (s.typeSearch k).searchDirection false
      rw [searchKey_typed hend hchar, hsearch]
      split
      · exact ⟨_, _, rfl⟩
      · exact ⟨_, _, rfl⟩

/-- The only key that is not handled is a digit when there are so many entries that their numbers do not fit. -/
theorem press_eq_none_iff (hkept : Kept s) (hon : s.OnEntry) (hpasses : s.numEntries ≤ k.passes) :
    s.press k = none ↔ s.searchMode = false ∧ k.IsDigit ∧ ¬ InScratch s k := by
  unfold RunMenu.press
  split
  next hsearch =>
    refine iff_of_false ?_ fun h => Bool.false_ne_true (h.1.symm.trans hsearch)
    obtain ⟨goes, s₁, hkey⟩ := searchKey_isSome hon hpasses
    rw [hkey]
    cases goes with
    | false => exact Option.some_ne_none _
    | true =>
      obtain ⟨hlow, rfl⟩ := searchKey_goes hkey
      have hdigit : ¬ k.IsDigit := fun hdigit => by
        have hhigh := hdigit.1
        omega
      obtain ⟨next, hnext⟩ := handle_isSome (s := { s with searchMode := false }) hon hpasses hdigit
      dsimp only
      rw [hnext]
      exact Option.some_ne_none _
  next hsearch =>
    by_cases hdigit : k.IsDigit
    · rw [startSearch_digit hdigit]
      by_cases hscratch : InScratch s k
      · obtain ⟨next, hnext, -⟩ := handle_digit hkept.short hdigit hscratch
        rw [hnext]
        exact iff_of_false (Option.some_ne_none _) fun h => h.2.2 hscratch
      · rw [handle_digit_lost hdigit hscratch]
        exact iff_of_true rfl ⟨Bool.eq_false_iff.2 hsearch, hdigit, hscratch⟩
    · have hsame := startSearch_within s k
      obtain ⟨next, hnext⟩ := handle_isSome (hsame.onEntry hon) (hsame.numEntries.symm ▸ hpasses) hdigit
      rw [hnext]
      exact iff_of_false (Option.some_ne_none _) fun h => hdigit h.2.1

/-- The bar is on an entry throughout a run exactly if none of its events loses it: a page down in a dumb terminal from where the
next page is behind the menu, `d` on the only line or, in a dumb terminal, on the last of a menu that does not scroll then, and a
fallback to an entry that there is none of. Until then every key is handled, but for a digit when there are entries whose
numbers have four digits. -/
theorem bar_stays {n : Int} {bar : Bar} {main dumb : Bool} (hbar : bar.OnEntry true n) (events : List MenuEvent) :
    ((RunMenu.start n bar main dumb).Stays events ↔ (RunMenu.start n bar main dumb).KeepsBar events) ∧
    ((RunMenu.start n bar main dumb).KeepsBar events → ∀ s k, (RunMenu.start n bar main dumb).run events = some s →
      s.numEntries ≤ k.passes →
      (s.press k = none ↔ s.searchMode = false ∧ k.IsDigit ∧ ¬ InScratch s k)) := by
  have hon : (RunMenu.start n bar main dumb).OnEntry := hbar.settle dumb
  have hkept : Kept (RunMenu.start n bar main dumb) := ⟨Nat.zero_le 2, fun _ => rfl⟩
  refine ⟨stays_iff hon events, fun hkeeps s k hrun hpasses => ?_⟩
  exact press_eq_none_iff (hkept.run hrun) ((stays_iff hon events).2 hkeeps events s (List.prefix_refl events) hrun) hpasses

/-- In a dumb terminal, a page down from the last of thirty entries. -/
theorem bar_stays_dumb : ¬ (RunMenu.start 30 ⟨0, 29⟩ true true).Stays [.key (plainKey 3)] := by
  have hbar : Bar.OnEntry true 30 ⟨0, 29⟩ :=
    ⟨by decide, by decide, by decide, .inl rfl, fun h => Bool.noConfusion h⟩
  rw [(bar_stays hbar [.key (plainKey 3)]).1]
  intro hkeeps
  have hpast : Bar.PastEnd 30 ⟨0, 29⟩ := ⟨by decide, by decide⟩
  exact (hkeeps _ rfl).1 (.inl (.inl ⟨rfl, hpast⟩))

end TrustedGrub.Menu
