import TrustedGrub.Menu.RunMenu

/-!
# Digits choose an entry

`candidates` are the entries whose number starts with the digits that were typed. In every state that a run of keys comes
to, a digit puts the bar on the first candidate, boots it where it is the only one, and is kept where there are several.
-/

namespace TrustedGrub.Menu

/-- The entries whose number starts with the digits. -/
def candidates (n : Nat) (typed : List Char) : List Nat := (List.range n).filter fun i => typed.isPrefixOf (decimal i)

/-- The digits with the one that a key adds to them. -/
def RunMenu.typed (s : RunMenu) (k : Key) : List Char := s.shortcutBuf ++ [Char.ofNat k.c]

/-- What a digit is to do: the digits that are kept fit the buffer, the bar is on the first candidate, and in the main menu
the only one is booted. -/
structure Chooses (s : RunMenu) (k : Key) (next : Next) : Prop where
  fits : next.state.shortcutBuf.length < shortcutBufSize
  kept : next.state.shortcutBuf = if 2 ≤ (candidates s.numEntries.toNat (s.typed k)).length then s.typed k else []
  found : ∀ i, (candidates s.numEntries.toNat (s.typed k)).head? = some i → next.state.bar.entry = i
  missed : candidates s.numEntries.toNat (s.typed k) = [] → next.state.bar = s.bar
  boots : (∃ s', next = .boot s') ↔ s.main = true ∧ (candidates s.numEntries.toNat (s.typed k)).length = 1

variable {s s' : RunMenu} {k : Key} {typed : List Char} {numEntries : Int} {bar : Bar} {next : Next}

/-! ## Numbers -/

/-- The comparison is whether the number starts with the digits. -/
theorem common_eq (typed number : List Char) : common typed number = typed.length ↔ typed.isPrefixOf number = true := by
  induction typed generalizing number with
  | nil => exact iff_of_true rfl List.isPrefixOf_nil_left
  | cons c typed ih =>
    cases number with
    | nil => exact iff_of_false nofun nofun
    | cons d number =>
      rw [common, List.isPrefixOf_cons_cons, Bool.and_eq_true, beq_iff_eq, ← ih]
      split
      next heq => rw [and_iff_right heq, List.length_cons, Nat.add_right_cancel_iff]
      next hne => exact iff_of_false nofun fun h => hne h.1

theorem decimal_length (i : Nat) : (decimal i).length ≤ 3 ↔ i < 1000 := Nat.length_toDigits_le_iff (by decide) (by decide)

theorem decimal_inj {i j : Nat} (h : decimal i = decimal j) : i = j := by
  have hvalue := congrArg (fun digits => Nat.ofDigitChars 10 digits 0) h
  simpa only [decimal, Nat.ofDigitChars_ten_toDigits] using hvalue

/-- Two numbers below a thousand that start alike start with two digits at most. -/
theorem typed_short (h : 2 ≤ (candidates 1000 typed).length) : typed.length ≤ 2 := by
  by_contra hlong
  have hwhole {i : Nat} (hi : i ∈ candidates 1000 typed) : decimal i = typed := by
    obtain ⟨hlt, hstart⟩ := List.mem_filter.1 hi
    have hlength := (decimal_length i).2 (List.mem_range.1 hlt)
    have hleading := List.isPrefixOf_iff_prefix.1 hstart
    exact (hleading.eq_of_length_le (by omega)).symm
  have hnodup : (candidates 1000 typed).Nodup := List.nodup_range.filter _
  match hc : candidates 1000 typed with
  | [] => rw [hc] at h; exact absurd h (by decide)
  | [_] => rw [hc] at h; exact absurd h (Nat.not_succ_le_self 1)
  | i :: j :: rest =>
    rw [hc] at hwhole hnodup
    have hsame := (hwhole List.mem_cons_self).trans (hwhole (List.mem_cons_of_mem i List.mem_cons_self)).symm
    obtain rfl := decimal_inj hsame
    exact (List.nodup_cons.1 hnodup).1 List.mem_cons_self

/-! ## The loop -/

/-- The candidates from an entry on. -/
def candidatesFrom (i n : Nat) (typed : List Char) : List Nat := (List.range' i n).filter fun i => typed.isPrefixOf (decimal i)

theorem candidatesFrom_zero (n : Nat) (typed : List Char) : candidatesFrom 0 n typed = candidates n typed := by
  rw [candidatesFrom, candidates, List.range_eq_range']

/-- **The loop** over entries whose numbers fit the array: it leaves at the second match, or goes on behind them. The
induction is on the number of these entries. -/
theorem shortcutLoop_fits (typed : List Char) (numEntries : Int) (n left : Nat) {i matched : Nat} (hmatched : matched ≤ 1)
    (hfits : i + n ≤ 1000) (bar : Bar) :
    shortcutLoop typed numEntries (n + left) i matched bar =
      let found := candidatesFrom i n typed
      let bar' := if matched = 0 then found.head?.elim bar fun j => setBarTo numEntries j else bar
      if 2 ≤ matched + found.length then some (2, bar') else shortcutLoop typed numEntries left (i + n) (matched + found.length) bar' := by
  induction n generalizing i matched bar with
  | zero =>
    have hone : ¬ 2 ≤ matched + 0 := Nat.not_le.2 (Nat.lt_succ_of_le hmatched)
    show shortcutLoop typed numEntries (0 + left) i matched bar = if 2 ≤ matched + 0 then _ else _
    rw [if_neg hone, Nat.zero_add]
    show _ = shortcutLoop typed numEntries left (i + 0) (matched + 0) (if matched = 0 then bar else bar)
    rw [ite_self]
    rfl
  | succ n ih =>
    have hsize : ¬ scratchSize < (decimal i).length + 1 := by
      have hlength := (decimal_length i).2 (by omega)
      unfold scratchSize
      omega
    have hfrom : candidatesFrom i (n + 1) typed =
        if typed.isPrefixOf (decimal i) then i :: candidatesFrom (i + 1) n typed else candidatesFrom (i + 1) n typed := by
      rw [candidatesFrom, List.range'_succ, List.filter_cons]
      rfl
    have hplace : i + (n + 1) = i + 1 + n := by omega
    rw [Nat.add_right_comm, shortcutLoop, if_neg hsize, hfrom, hplace]
    by_cases hstart : typed.isPrefixOf (decimal i) = true
    · rw [if_pos ((common_eq _ _).2 hstart), if_pos hstart]
      dsimp only
      rcases Nat.le_one_iff_eq_zero_or_eq_one.1 hmatched with rfl | rfl
      · rw [if_pos rfl, ih (Nat.le_refl 1) (by omega)]
        dsimp only
        rw [if_neg Nat.one_ne_zero, if_pos rfl, List.length_cons, Nat.zero_add, Nat.add_comm 1]
        rfl
      · rw [if_neg Nat.one_ne_zero, if_neg Nat.one_ne_zero, List.length_cons, if_pos (by omega)]
    · rw [if_neg fun heq => hstart ((common_eq _ _).1 heq), if_neg hstart]
      exact ih hmatched (by omega) bar

/-- The four-character number of the first entry behind a thousand does not fit. -/
theorem shortcutLoop_thousand (typed : List Char) (numEntries : Int) (left matched : Nat) (bar : Bar) :
    shortcutLoop typed numEntries (left + 1) 1000 matched bar = none := by
  rw [shortcutLoop, if_pos (by decide)]

theorem candidates_split {n m : Nat} (h : n ≤ m) (typed : List Char) :
    candidates m typed = candidates n typed ++ candidatesFrom n (m - n) typed := by
  obtain ⟨d, rfl⟩ := Nat.exists_eq_add_of_le h
  rw [← candidatesFrom_zero, ← candidatesFrom_zero, candidatesFrom, candidatesFrom, candidatesFrom, Nat.add_sub_cancel_left,
    ← List.filter_append,
    ← List.range'_append_1, Nat.zero_add]

/-- The condition on the digits: no entry is beyond the array, or the loop leaves before. -/
def InScratch (s : RunMenu) (k : Key) : Prop := s.numEntries ≤ 1000 ∨ 2 ≤ (candidates 1000 (s.typed k)).length

/-- What the loop comes to. -/
def Found (numEntries : Int) (typed : List Char) (bar : Bar) (matched : Nat) (bar' : Bar) : Prop :=
  let found := candidates numEntries.toNat typed
  matched = min 2 found.length ∧ bar' = found.head?.elim bar fun j => setBarTo numEntries j

theorem shortcutLoop_sound (hsound : numEntries ≤ 1000 ∨ 2 ≤ (candidates 1000 typed).length) (bar : Bar) :
    ∃ matched bar', shortcutLoop typed numEntries numEntries.toNat 0 0 bar = some (matched, bar') ∧
      Found numEntries typed bar matched bar' := by
  rcases Nat.lt_or_ge 1000 numEntries.toNat with hmany | hfew
  · have hfound := hsound.resolve_left (by omega)
    have hloop := shortcutLoop_fits typed numEntries 1000 (numEntries.toNat - 1000) (Nat.zero_le 1) (Nat.le_refl _) bar
    rw [Nat.add_sub_cancel' (Nat.le_of_lt hmany)] at hloop
    dsimp only at hloop
    rw [candidatesFrom_zero, if_pos rfl, Nat.zero_add, if_pos hfound] at hloop
    refine ⟨_, _, hloop, ?_, ?_⟩
    · rw [candidates_split (Nat.le_of_lt hmany), List.length_append]
      omega
    · rw [candidates_split (Nat.le_of_lt hmany), List.head?_append_of_ne_nil]
      intro hnil
      rw [hnil] at hfound
      exact absurd hfound (by decide)
  · have hloop := shortcutLoop_fits typed numEntries numEntries.toNat 0 (Nat.zero_le 1) (show 0 + numEntries.toNat ≤ 1000 by omega) bar
    dsimp only at hloop
    rw [Nat.add_zero, candidatesFrom_zero, if_pos rfl, Nat.zero_add] at hloop
    split at hloop
    next hfound => exact ⟨_, _, hloop, (Nat.min_eq_left hfound).symm, rfl⟩
    next hfound =>
      refine ⟨_, _, hloop, ?_, rfl⟩
      rw [Nat.min_eq_right (by omega)]

theorem shortcutLoop_lost (hnot : ¬ (numEntries ≤ 1000 ∨ 2 ≤ (candidates 1000 typed).length)) (bar : Bar) :
    shortcutLoop typed numEntries numEntries.toNat 0 0 bar = none := by
  obtain ⟨-, hfew⟩ := not_or.1 hnot
  obtain ⟨d, hd⟩ : ∃ d, numEntries.toNat = 1000 + (d + 1) := ⟨numEntries.toNat - 1001, by omega⟩
  rw [hd, shortcutLoop_fits typed numEntries 1000 (d + 1) (Nat.zero_le 1) (Nat.le_refl _) bar]
  dsimp only
  rw [candidatesFrom_zero, Nat.zero_add, if_neg hfew]
  exact shortcutLoop_thousand _ _ _ _ _

/-! ## What the other keys leave -/

/-- The digits and the search mode are as they were. -/
structure Leaves (s s' : RunMenu) : Prop where
  shortcutBuf : s'.shortcutBuf = s.shortcutBuf
  searchMode : s'.searchMode = s.searchMode

theorem Leaves.refl (s : RunMenu) : Leaves s s := ⟨rfl, rfl⟩

theorem searchMenu_leaves {backwards advance : Bool} {found : Int} (h : s.searchMenu k backwards advance = some (found, s')) :
    Leaves s s' := by
  unfold RunMenu.searchMenu at h
  dsimp only at h
  split at h
  next => cases h
  next =>
    obtain ⟨-, rfl⟩ := Prod.mk.inj (Option.some.inj h)
    split
    · exact .refl s
    · exact ⟨rfl, rfl⟩

theorem searchAgain_leaves (h : s.searchAgain k = some s') : Leaves s s' := by
  unfold RunMenu.searchAgain at h
  split at h
  next =>
    obtain ⟨⟨found, s₁⟩, hsearch, rfl⟩ := Option.map_eq_some_iff.1 h
    exact searchMenu_leaves hsearch
  next =>
    split at h
    next =>
      obtain ⟨⟨found, s₁⟩, hsearch, rfl⟩ := Option.map_eq_some_iff.1 h
      exact searchMenu_leaves hsearch
    next =>
      obtain rfl := Option.some.inj h
      exact .refl s

/-- No search where the key is neither `n` nor `N`. -/
theorem searchAgain_other (h₁ : k.c ≠ 0x6E) (h₂ : k.c ≠ 0x4E) : s.searchAgain k = some s := by
  rw [RunMenu.searchAgain, if_neg fun h => h₁ h.1, if_neg fun h => h₂ h.1]

theorem editLines_leaves (s : RunMenu) (c : Nat) : Leaves s (s.editLines c).2 := by
  unfold RunMenu.editLines
  split
  · split
    · exact ⟨rfl, rfl⟩
    · exact .refl s
  · split
    · exact ⟨rfl, rfl⟩
    · split
      · exact ⟨rfl, rfl⟩
      · exact .refl s

theorem privileged_state (s : RunMenu) (k : Key) (c : Nat) : (s.privileged k c).state = s ∧ ∀ s', s.privileged k c ≠ .boot s' := by
  unfold RunMenu.privileged
  split
  · split
    · split
      · exact ⟨rfl, nofun⟩
      · exact ⟨rfl, nofun⟩
    · exact ⟨rfl, nofun⟩
  · split
    · split
      · exact ⟨rfl, nofun⟩
      · exact ⟨rfl, nofun⟩
    · split
      · exact ⟨rfl, nofun⟩
      · exact ⟨rfl, nofun⟩

theorem command_leaves (s : RunMenu) (k : Key) (c : Nat) : Leaves s (s.command k c).state := by
  unfold RunMenu.command
  split
  · exact .refl s
  · split
    · split
      · exact .refl s
      · split
        · exact .refl s
        · split
          · exact .refl s
          · rw [(privileged_state s k c).1]
            exact .refl s
    · have hedit := editLines_leaves s c
      generalize s.editLines c = edited at hedit ⊢
      obtain ⟨c', s₁⟩ := edited
      dsimp only
      split
      · exact hedit
      · split
        · exact hedit
        · rw [(privileged_state s₁ k c').1]
          exact hedit

/-! ## The keys of a run -/

/-- What holds before every key: the digits that are kept are two at most, and there are none in the search mode. -/
structure Kept (s : RunMenu) : Prop where
  short : s.shortcutBuf.length ≤ 2
  searching : s.searchMode = true → s.shortcutBuf = []

theorem Kept.of_leaves (h : Kept s) (hleaves : Leaves s s') : Kept s' where
  short := by
    rw [hleaves.shortcutBuf]
    exact h.short
  searching hsearch := by
    rw [hleaves.shortcutBuf]
    exact h.searching (hleaves.searchMode ▸ hsearch)

theorem shortcut_searchMode {c : Nat} (h : s.shortcut k = some (c, s')) : s'.searchMode = s.searchMode := by
  unfold RunMenu.shortcut at h
  split at h
  · dsimp only at h
    split at h
    · cases h
    · split at h
      · cases h
      · obtain ⟨-, rfl⟩ := Prod.mk.inj (Option.some.inj h)
        rfl
  · obtain ⟨-, rfl⟩ := Prod.mk.inj (Option.some.inj h)
    rfl

/-- Behind the search mode no key changes it. -/
theorem handle_searchMode (h : s.handle k = some next) : next.state.searchMode = s.searchMode := by
  unfold RunMenu.handle at h
  split at h
  next => cases h
  next s₁ hagain =>
    split at h
    next => cases h
    next c s₂ hshortcut =>
      obtain rfl := Option.some.inj h
      have hleaves := command_leaves { s₂ with bar := moveBar s₂.dumb s₂.numEntries c s₂.bar } k c
      exact hleaves.searchMode.trans ((shortcut_searchMode hshortcut).trans (searchAgain_leaves hagain).searchMode)

/-- A key that is no digit clears the digits. -/
theorem handle_other (hdigit : ¬ k.IsDigit) (h : s.handle k = some next) : next.state.shortcutBuf = [] := by
  unfold RunMenu.handle at h
  split at h
  next => cases h
  next s₁ hagain =>
    rw [RunMenu.shortcut, if_neg hdigit] at h
    obtain rfl := Option.some.inj h
    exact (command_leaves { s₁ with shortcutBuf := [], bar := moveBar s₁.dumb s₁.numEntries k.c s₁.bar } k k.c).shortcutBuf

theorem digit_c (hdigit : k.IsDigit) : k.c ≠ 0x6E ∧ k.c ≠ 0x4E ∧ k.c ≠ 0x2F ∧ k.c ≠ 0x3F := by
  obtain ⟨hlow, hhigh⟩ := hdigit
  omega

/-- A digit moves the bar in no other way. -/
theorem moveBar_digit {c : Nat} (hc : c = 0x0A ∨ 0x30 ≤ c ∧ c ≤ 0x39) (dumb : Bool) (numEntries : Int) (bar : Bar) :
    moveBar dumb numEntries c bar = bar := by
  rw [moveBar, if_neg (by omega), if_neg (by omega), if_neg (by omega), if_neg (by omega)]

/-- A digit boots nothing by itself. -/
theorem command_digit {c : Nat} (hc : 0x30 ≤ c ∧ c ≤ 0x39) (s : RunMenu) (k : Key) :
    (s.command k c).state = s ∧ ∀ s', s.command k c ≠ .boot s' := by
  have hedit : s.editLines c = (c, s) := by
    rw [RunMenu.editLines, if_neg (by omega), if_neg (by omega), if_neg (by omega)]
  rw [RunMenu.command, if_neg (by omega), hedit]
  split
  · rw [if_neg (by omega), if_neg (by omega), if_neg (by omega)]
    exact privileged_state s k c
  · dsimp only
    rw [if_neg (by omega), if_neg (by omega)]
    exact privileged_state s k c

theorem setBarTo_entry (numEntries i : Int) : (setBarTo numEntries i).entry = i := by
  unfold setBarTo Bar.entry
  split
  · exact zero_add i
  · split
    · show numEntries - 12 + (i - (numEntries - 12)) = i
      omega
    · show i - 5 + 5 = i
      omega

/-- A digit where the array is not left. -/
theorem handle_digit (hkept : s.shortcutBuf.length ≤ 2) (hdigit : k.IsDigit) (hsound : InScratch s k) :
    ∃ next, s.handle k = some next ∧ Chooses s k next := by
  obtain ⟨matched, bar', hloop, hmatched, hbar⟩ := shortcutLoop_sound hsound s.bar
  obtain ⟨h₁, h₂, -, -⟩ := digit_c hdigit
  have hsize : ¬ shortcutBufSize < (s.typed k).length + 1 := by
    rw [RunMenu.typed, List.length_append, List.length_singleton]
    unfold shortcutBufSize
    omega
  have hshortcut : s.shortcut k = some (if matched = 1 ∧ s.main then 0x0A else k.c,
      { s with bar := bar', shortcutBuf := if matched ≤ 1 then [] else s.typed k }) := by
    rw [RunMenu.shortcut, if_pos hdigit]
    dsimp only
    rw [← RunMenu.typed, if_neg hsize, hloop]
  have hlength : matched ≤ 1 ↔ ¬ 2 ≤ (candidates s.numEntries.toNat (s.typed k)).length := by omega
  have hone : matched = 1 ↔ (candidates s.numEntries.toNat (s.typed k)).length = 1 := by omega
  rw [RunMenu.handle, searchAgain_other h₁ h₂]
  dsimp only
  rw [hshortcut]
  dsimp only
  rw [moveBar_digit (by split; exact .inl rfl; exact .inr hdigit)]
  refine ⟨_, rfl, ?_⟩
  generalize hs₁ : ({ s with bar := bar', shortcutBuf := if matched ≤ 1 then [] else s.typed k } : RunMenu) = s₁
  have hfits : s₁.shortcutBuf.length < shortcutBufSize := by
    rw [← hs₁]
    show (if matched ≤ 1 then [] else s.typed k).length < shortcutBufSize
    split
    · decide
    · omega
  have hkeeps : s₁.shortcutBuf = if 2 ≤ (candidates s.numEntries.toNat (s.typed k)).length then s.typed k else [] := by
    rw [← hs₁]
    show (if matched ≤ 1 then [] else s.typed k) = _
    split
    next hle => rw [if_neg (hlength.1 hle)]
    next hle => rw [if_pos (not_not.1 fun hnot => hle (hlength.2 hnot))]
  have hfound : ∀ i, (candidates s.numEntries.toNat (s.typed k)).head? = some i → s₁.bar.entry = i := by
    intro i hi
    rw [hi] at hbar
    rw [← hs₁]
    show bar'.entry = i
    rw [hbar]
    exact setBarTo_entry s.numEntries i
  have hmissed : candidates s.numEntries.toNat (s.typed k) = [] → s₁.bar = s.bar := by
    intro hnil
    rw [hnil] at hbar
    rw [← hs₁]
    exact hbar
  have hmain : s₁.main = s.main := by rw [← hs₁]
  by_cases hbooted : matched = 1 ∧ s.main = true
  · rw [if_pos hbooted]
    have hcommand : s₁.command k 0x0A = .boot s₁ := by
      rw [RunMenu.command, if_neg (by decide), if_pos (hmain.trans hbooted.2), if_neg (by decide), if_pos (.inl rfl)]
    rw [hcommand]
    exact ⟨hfits, hkeeps, hfound, hmissed, iff_of_true ⟨s₁, rfl⟩ ⟨hbooted.2, hone.1 hbooted.1⟩⟩
  · rw [if_neg hbooted]
    obtain ⟨hstate, hboot⟩ := command_digit hdigit s₁ k
    refine ⟨?_, ?_, ?_, ?_, iff_of_false (fun h => h.elim hboot) fun h => hbooted ⟨hone.2 h.2, h.1⟩⟩
    · rwa [hstate]
    · rwa [hstate]
    · rwa [hstate]
    · rwa [hstate]

/-- A digit where the array is left. -/
theorem handle_digit_lost (hdigit : k.IsDigit) (hnot : ¬ InScratch s k) : s.handle k = none := by
  obtain ⟨h₁, h₂, -, -⟩ := digit_c hdigit
  have hshortcut : s.shortcut k = none := by
    rw [RunMenu.shortcut, if_pos hdigit]
    dsimp only
    split
    · rfl
    · rw [← RunMenu.typed, shortcutLoop_lost hnot]
  rw [RunMenu.handle, searchAgain_other h₁ h₂]
  dsimp only
  rw [hshortcut]

/-- In the search mode the digits are not touched. -/
theorem searchKey_keeps {goes : Bool} (h : s.searchKey k = some (goes, s')) :
    s'.shortcutBuf = s.shortcutBuf ∧ (goes = true → s'.searchMode = false ∧ ¬ k.IsDigit) := by
  unfold RunMenu.searchKey at h
  split at h
  next =>
    obtain ⟨rfl, rfl⟩ := Prod.mk.inj (Option.some.inj h)
    exact ⟨rfl, nofun⟩
  next =>
    split at h
    next hother =>
      obtain ⟨rfl, rfl⟩ := Prod.mk.inj (Option.some.inj h)
      refine ⟨rfl, fun _ => ⟨rfl, fun hdigit => ?_⟩⟩
      obtain ⟨hlow, -⟩ := hdigit
      omega
    next =>
      have htyped :
          ∀ s₁ : RunMenu, (if k.c = 8 then if s.searchBuf = [] then { s with searchMode := false } else
            { s with searchBuf := s.searchBuf.dropLast }
          else if s.searchBuf.length < searchBufSize - 1 then { s with searchBuf := s.searchBuf ++ [(Char.ofNat k.c).toLower] }
          else s) = s₁ → s₁.shortcutBuf = s.shortcutBuf := by
        rintro s₁ rfl
        split
        · split
          · rfl
          · rfl
        · split
          · rfl
          · rfl
      dsimp only at h
      generalize hs₁ :
          (if k.c = 8 then if s.searchBuf = [] then { s with searchMode := false } else { s with searchBuf := s.searchBuf.dropLast }
          else if s.searchBuf.length < searchBufSize - 1 then { s with searchBuf := s.searchBuf ++ [(Char.ofNat k.c).toLower] }
          else s : RunMenu) = s₁ at h
      have hsame := htyped s₁ hs₁
      split at h
      next =>
        split at h
        next => cases h
        next found s₂ hsearch =>
          obtain ⟨rfl, rfl⟩ := Prod.mk.inj (Option.some.inj h)
          exact ⟨(searchMenu_leaves hsearch).shortcutBuf.trans hsame, nofun⟩
      next =>
        obtain ⟨rfl, rfl⟩ := Prod.mk.inj (Option.some.inj h)
        exact ⟨hsame, nofun⟩

theorem startSearch_digit (hdigit : k.IsDigit) (s : RunMenu) : s.startSearch k = s := by
  obtain ⟨-, -, h₁, h₂⟩ := digit_c hdigit
  rw [RunMenu.startSearch, if_neg fun h => h.elim h₁ h₂]

theorem startSearch_shortcutBuf (s : RunMenu) (k : Key) : (s.startSearch k).shortcutBuf = s.shortcutBuf := by
  unfold RunMenu.startSearch
  split
  · rfl
  · rfl

/-- The handling behind the search mode. -/
theorem handle_kept (hshort : s.shortcutBuf.length ≤ 2) (hdigits : k.IsDigit → s.searchMode = false) (h : s.handle k = some next) :
    Kept next.state ∧ (¬ k.IsDigit → next.state.shortcutBuf = []) := by
  by_cases hdigit : k.IsDigit
  · have hsound : InScratch s k := by
      by_contra hnot
      rw [handle_digit_lost hdigit hnot] at h
      cases h
    obtain ⟨next', hnext', hchooses⟩ := handle_digit hshort hdigit hsound
    obtain rfl := Option.some.inj (hnext'.symm.trans h)
    have hmode := (handle_searchMode h).trans (hdigits hdigit)
    refine ⟨⟨?_, fun hsearch => ?_⟩, fun hnot => absurd hdigit hnot⟩
    · rw [hchooses.kept]
      split
      next hseveral =>
        refine typed_short (hsound.elim (fun hfew => ?_) id)
        rw [candidates_split (show s.numEntries.toNat ≤ 1000 by omega), List.length_append]
        exact Nat.le_add_right_of_le hseveral
      next => exact Nat.zero_le 2
    · rw [hmode] at hsearch
      cases hsearch
  · have hcleared := handle_other hdigit h
    refine ⟨⟨?_, fun _ => hcleared⟩, fun _ => hcleared⟩
    rw [hcleared]
    exact Nat.zero_le 2

/-- The step: what is kept before a key is kept after it. -/
theorem Kept.press (h : Kept s) (hpress : s.press k = some next) : Kept next.state ∧ (¬ k.IsDigit → next.state.shortcutBuf = []) := by
  unfold RunMenu.press at hpress
  split at hpress
  next hsearching =>
    have hnone := h.searching hsearching
    split at hpress
    next => cases hpress
    next s₁ hkey =>
      obtain rfl := Option.some.inj hpress
      have hcleared := (searchKey_keeps hkey).1.trans hnone
      refine ⟨⟨?_, fun _ => hcleared⟩, fun _ => hcleared⟩
      show s₁.shortcutBuf.length ≤ 2
      rw [hcleared]
      exact Nat.zero_le 2
    next s₁ hkey =>
      obtain ⟨hsame, hgoes⟩ := searchKey_keeps hkey
      refine handle_kept ?_ (fun hdigit => absurd hdigit (hgoes rfl).2) hpress
      rw [hsame]
      exact h.short
  next hsearching =>
    refine handle_kept ?_ (fun hdigit => ?_) hpress
    · rw [startSearch_shortcutBuf]
      exact h.short
    · rw [startSearch_digit hdigit]
      exact Bool.not_eq_true _ ▸ hsearching

theorem Kept.step (h : Kept s) {e : MenuEvent} (hstep : s.step e = some s') : Kept s' := by
  have hbooted (s : RunMenu) (fallback : Option Int) (dumb : Bool) : Leaves s ((s.booted fallback).restart dumb) := by
    cases fallback with
    | none => exact ⟨rfl, rfl⟩
    | some i => exact ⟨rfl, rfl⟩
  cases e with
  | expire fallback dumb =>
    obtain rfl := Option.some.inj hstep
    exact h.of_leaves (hbooted s fallback dumb)
  | key k =>
    obtain ⟨next, hpress, hresume⟩ := Option.bind_eq_some_iff.1 hstep
    have hkept := (h.press hpress).1
    cases next with
    | loop s₁ =>
      obtain rfl := Option.some.inj hresume
      exact hkept
    | restart s₁ =>
      obtain rfl := Option.some.inj hresume
      exact hkept.of_leaves ⟨rfl, rfl⟩
    | boot s₁ =>
      obtain rfl := Option.some.inj hresume
      exact hkept.of_leaves (hbooted s₁ k.fallback k.dumb)
    | leave s₁ => cases hresume

/-- The run. -/
theorem Kept.run (h : Kept s) {events : List MenuEvent} (hrun : s.run events = some s') : Kept s' := by
  induction events generalizing s with
  | nil =>
    obtain rfl := Option.some.inj hrun
    exact h
  | cons e events ih =>
    obtain ⟨s₁, hstep, hrest⟩ := Option.bind_eq_some_iff.1 hrun
    exact ih (h.step hstep) hrest

/-- **Digit shortcuts**: in every state that a run of keys comes to, a digit does what it is to do exactly when no number
with four digits is printed for it, and any other key leaves no digits. -/
theorem digit_shortcuts {n : Int} {bar : Bar} {main dumb : Bool} {events : List MenuEvent}
    (hrun : (RunMenu.start n bar main dumb).run events = some s) (k : Key) :
    (k.IsDigit → s.searchMode = false → ((∃ next, s.press k = some next ∧ Chooses s k next) ↔ InScratch s k)) ∧
    (¬ k.IsDigit → ∀ next, s.press k = some next → next.state.shortcutBuf = []) := by
  have hstart : Kept (RunMenu.start n bar main dumb) := ⟨Nat.zero_le 2, fun _ => rfl⟩
  have hkept := hstart.run hrun
  refine ⟨fun hdigit hmode => ?_, fun hdigit next hpress => (hkept.press hpress).2 hdigit⟩
  rw [RunMenu.press, hmode, if_neg Bool.false_ne_true, startSearch_digit hdigit]
  constructor
  · rintro ⟨next, hhandle, -⟩
    by_contra hnot
    rw [handle_digit_lost hdigit hnot] at hhandle
    cases hhandle
  · exact handle_digit hkept.short hdigit

/-- A key, in a menu whose entries have no text. -/
def plainKey (c : Nat) : Key where
  c
  text _ := []
  passes := 0
  older := false
  locked := false
  leaves := false
  toggles := false
  fallback := none
  dumb := false

/-- In a menu of twelve entries, `1` and then `1` again. -/
theorem digit_shortcuts_twelve : ∃ s, (RunMenu.start 12 ⟨0, 0⟩ true false).run [.key (plainKey 0x31)] = some s ∧ s.shortcutBuf = ['1'] ∧
    ((plainKey 0x31).IsDigit → s.searchMode = false →
      ((∃ next, s.press (plainKey 0x31) = some next ∧ Chooses s (plainKey 0x31) next) ↔ InScratch s (plainKey 0x31))) ∧
    (¬ (plainKey 0x31).IsDigit → ∀ next, s.press (plainKey 0x31) = some next → next.state.shortcutBuf = []) := by
  have hrun : (RunMenu.start 12 ⟨0, 0⟩ true false).run [.key (plainKey 0x31)] =
      some { RunMenu.start 12 ⟨0, 0⟩ true false with bar := ⟨0, 1⟩, shortcutBuf := ['1'] } := rfl
  exact ⟨_, hrun, rfl, digit_shortcuts hrun (plainKey 0x31)⟩

/-- In a menu of a thousand and one entries, `0` prints the number of the last one behind the array. -/
theorem digit_shortcuts_overrun : (RunMenu.start 1001 ⟨0, 0⟩ true false).press (plainKey 0x30) = none ∧
    ¬ ∃ next, (RunMenu.start 1001 ⟨0, 0⟩ true false).press (plainKey 0x30) = some next ∧
      Chooses (RunMenu.start 1001 ⟨0, 0⟩ true false) (plainKey 0x30) next := by
  have hlost : (RunMenu.start 1001 ⟨0, 0⟩ true false).press (plainKey 0x30) = none := by
    have hnot : ¬ InScratch (RunMenu.start 1001 ⟨0, 0⟩ true false) (plainKey 0x30) := by
      rw [InScratch, not_or]
      exact ⟨by decide, by decide +kernel⟩
    have hdigit : (plainKey 0x30).IsDigit := by decide
    have hmode : ¬ (RunMenu.start 1001 ⟨0, 0⟩ true false).searchMode = true := Bool.false_ne_true
    rw [RunMenu.press, if_neg hmode, startSearch_digit hdigit]
    exact handle_digit_lost hdigit hnot
  refine ⟨hlost, ?_⟩
  rintro ⟨next, hnext, -⟩
  rw [hlost] at hnext
  cases hnext

end TrustedGrub.Menu
