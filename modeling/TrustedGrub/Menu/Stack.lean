import TrustedGrub.Menu.History

/-!
# The history is a stack

From the start, a run whose steps meet the condition keeps the ring a stack of the files that were loaded: the indices
stay in it, a file that is loaded comes on top, and going back makes the file below the top the top one.
-/

namespace TrustedGrub.Menu
open Fips180 (Byte)
open Memory (slice store)
open Ring (place)

/-- The slot holds the file, and where its bar stood if that was noted. -/
structure Describes (slot : Slot) (entry : Entry) : Prop where
  filename : slot.filename = entry.filename
  length : entry.filename.length = configFileLen
  bar : ∀ bar, entry.bar = some bar → slot.bar = bar

/-- The history is the stack of these files. -/
structure Stacked (h : History) (files : List Entry) : Prop where
  ring : Ring.Holds Describes configFileHistoryEntries h.slots h.start files
  pos : h.pos = place configFileHistoryEntries h.start files.length
  prev : h.prevPos = place configFileHistoryEntries h.start (files.length - 1)

/-- The state is what the stack says. -/
structure Agrees (s : Stage2) (b : Browser) : Prop where
  stacked : Stacked s.history b.files
  still : s.history.menuPos = none
  configFile : s.configFile = b.configFile
  pending : s.pending = b.pending
  shown : s.shown = b.shown
  bar : s.bar = b.bar
  loaded : b.shown = true → b.files ≠ []

variable {h : History} {files : List Entry} {entry top : Entry} {s : Stage2} {b : Browser}

theorem agrees_start (configFile : Nat → Byte) : Agrees (.start configFile) (.start configFile) where
  stacked :=
    ⟨⟨(by decide : 0 < configFileHistoryEntries), (by decide : 0 < configFileHistoryEntries), fun k hk => absurd hk (Nat.not_lt_zero k)⟩,
      rfl, rfl⟩
  still := rfl
  configFile := rfl
  pending := rfl
  shown := rfl
  bar := rfl
  loaded := nofun

/-! ## The operations on the ring -/

/-- The indices stay in the ring. -/
theorem Stacked.range (hs : Stacked h files) : h.pos < configFileHistoryEntries ∧ h.start < configFileHistoryEntries ∧
    h.prevPos < configFileHistoryEntries := by
  have hN : 0 < configFileHistoryEntries := by decide
  refine ⟨?_, hs.ring.first, ?_⟩
  · rw [hs.pos]
    exact Ring.place_lt hN _
  · rw [hs.prev]
    exact Ring.place_lt hN _

/-- **A file is saved** on top of what lies below the slot it is written to. -/
theorem save_stacked (hring : Ring.Holds Describes configFileHistoryEntries h.slots h.start files)
    (hpos : h.pos = place configFileHistoryEntries h.start files.length) (configFile : Nat → Byte)
    (hentry : Describes { h.slots h.pos with filename := slice configFile 0 configFileLen } entry) :
    Stacked (h.save false configFile) (Ring.push configFileHistoryEntries files entry) := by
  have hN : 1 < configFileHistoryEntries := by decide
  have hlt : h.pos < configFileHistoryEntries := by
    rw [hpos]
    exact Ring.place_lt (Nat.lt_of_succ_lt hN) _
  have hnext :
      (if h.pos + 1 = configFileHistoryEntries then 0 else h.pos + 1) = place configFileHistoryEntries h.start (files.length + 1) := by
    rw [Ring.next_eq hlt, hpos, Ring.place_place]
  have hstart : (h.save false configFile).start = if h.start = place configFileHistoryEntries h.start (files.length + 1) then
      place configFileHistoryEntries h.start 1 else h.start := by
    show (if h.start = (if h.pos + 1 = configFileHistoryEntries then 0 else h.pos + 1) then _ else h.start) = _
    rw [hnext, Ring.next_eq hring.first]
  have hpush := hring.push hN hentry
  have hplace := Ring.push_place hN hring entry
  rw [← hstart] at hpush hplace
  rw [← hpos] at hpush
  refine ⟨hpush, ?_, ?_⟩
  · rw [hplace.1]
    exact hnext
  · rw [hplace.2]
    exact hpos

theorem save_menuPos (h : History) (pending : Bool) (configFile : Nat → Byte) : (h.save pending configFile).menuPos = h.menuPos := rfl

/-- A file that is loaded anew. -/
theorem Stacked.save (hs : Stacked h files) (configFile : Nat → Byte) :
    Stacked (h.save false configFile) (Ring.push configFileHistoryEntries files ⟨slice configFile 0 configFileLen, none⟩) :=
  save_stacked hs.ring hs.pos configFile ⟨rfl, Memory.slice_length _ _ _, nofun⟩

/-- The bar is noted for the file on top. -/
theorem Stacked.record (hs : Stacked h (files ++ [top])) (bar : Bar) :
    Stacked (h.record bar) (files ++ [{ top with bar := some bar }]) := by
  have hlength : (files ++ [top]).length - 1 = files.length := by
    rw [List.length_append, List.length_singleton, Nat.add_sub_cancel]
  have hprev := hs.prev
  rw [hlength] at hprev
  have htop := hs.ring.last
  have hslot : Describes { h.slots h.prevPos with bar } { top with bar := some bar } := by
    rw [hprev]
    exact ⟨htop.filename, htop.length, fun bar' heq => Option.some.inj heq⟩
  have hring := hs.ring.set_last hslot
  rw [← hprev] at hring
  have hpos := hs.pos
  have hsame : (files ++ [{ top with bar := some bar }]).length = (files ++ [top]).length := by
    rw [List.length_append, List.length_append]
    rfl
  refine ⟨hring, ?_, ?_⟩
  · rw [hsame]
    exact hpos
  · rw [hsame, hlength]
    exact hprev

/-- A key goes back where a file lies below the top one. -/
theorem Stacked.goBack_isSome (hs : Stacked h files) (pending : Bool) (configFile : Nat → Byte) :
    (h.goBack pending configFile).isSome = true ↔ 2 ≤ files.length := by
  have hroom := hs.ring.room
  have hzero := Ring.place_zero hs.ring.first
  have hsame : h.prevPos = h.start ↔ files.length - 1 = 0 := by
    rw [hs.prev]
    constructor
    · intro heq
      exact Ring.place_inj (by omega) (by decide) (heq.trans hzero.symm)
    · intro heq
      rw [heq, hzero]
  unfold History.goBack
  split
  next hne =>
    rw [Ne, hsame] at hne
    exact iff_of_true rfl (by omega)
  next heq =>
    rw [not_not, hsame] at heq
    exact iff_of_false nofun (by omega)

/-- **Going back** comes to the file below the top one, and the file above it is gone once the file is saved again. -/
theorem Stacked.goBack (hs : Stacked h (files ++ [entry] ++ [top])) (configFile : Nat → Byte) : ∃ h',
    h.goBack false configFile = some (store configFile 0 entry.filename, h') ∧
      h'.menuPos = some (place configFileHistoryEntries h.start files.length) ∧
    (h'.slots (place configFileHistoryEntries h.start files.length) = h.slots (place configFileHistoryEntries h.start files.length)) ∧
    Stacked (h'.save false (store configFile 0 entry.filename)) (files ++ [entry]) ∧
    ((h'.save false (store configFile 0 entry.filename)).slots (place configFileHistoryEntries h.start files.length)).bar =
      (h.slots (place configFileHistoryEntries h.start files.length)).bar := by
  have hroom := hs.ring.room
  have hbelow := hs.ring.take (files ++ [entry]).length
  rw [List.take_left] at hbelow
  have hentry := hbelow.last
  have hfiles := hbelow.take files.length
  rw [List.take_left] at hfiles
  have haccepted := (hs.goBack_isSome false configFile).2 (by rw [List.length_append, List.length_append]; exact Nat.le_add_left 2 _)
  have hprev :
      (if h.prevPos = 0 then configFileHistoryEntries - 1 else h.prevPos - 1) = place configFileHistoryEntries h.start files.length := by
    have hlength : (files ++ [entry] ++ [top]).length - 1 = files.length + 1 := by
      rw [List.length_append, List.length_append, List.length_singleton, List.length_singleton, Nat.add_sub_cancel]
    have hplace := hs.prev
    rw [hlength] at hplace
    rw [hplace]
    exact Ring.previous_eq hs.ring.first
  have hne : h.prevPos ≠ h.start := by
    intro heq
    rw [History.goBack, if_neg (not_not_intro heq)] at haccepted
    cases haccepted
  refine ⟨{ h with pos := place configFileHistoryEntries h.start files.length,
                   menuPos := some (place configFileHistoryEntries h.start files.length) },
    ?_, rfl, rfl, ?_, ?_⟩
  · rw [History.goBack, if_pos hne]
    dsimp only
    rw [hprev, hentry.filename, if_neg Bool.false_ne_true]
  · have hsaved : Describes { h.slots (place configFileHistoryEntries h.start files.length) with
        filename := slice (store configFile 0 entry.filename) 0 configFileLen } entry :=
      ⟨Memory.slice_store configFile 0 hentry.length, hentry.length, hentry.bar⟩
    have hpush : Ring.push configFileHistoryEntries files entry = files ++ [entry] := by
      rw [List.length_append, List.length_append, List.length_singleton, List.length_singleton] at hroom
      rw [Ring.push, if_pos (Nat.lt_of_succ_lt hroom)]
    rw [← hpush]
    exact save_stacked (h := { h with
      pos := place configFileHistoryEntries h.start files.length
      menuPos := some (place configFileHistoryEntries h.start files.length) }) hfiles rfl _ hsaved
  · show (Function.update h.slots (place configFileHistoryEntries h.start files.length) _
      (place configFileHistoryEntries h.start files.length)).bar = _
    rw [Function.update_self]

/-! ## Steps -/

theorem Browser.older_eq {below : List Entry} (hb : b.older = some (below, entry)) : ∃ top, b.files = below ++ [entry] ++ [top] := by
  rw [Browser.older] at hb
  cases hlast : b.files.dropLast.getLast? with
  | none =>
    rw [hlast] at hb
    cases hb
  | some entry' =>
    rw [hlast] at hb
    obtain ⟨rfl, rfl⟩ := Prod.mk.inj (Option.some.inj hb)
    have hdrop := List.dropLast_append_getLast? _ hlast
    have hne : b.files ≠ [] := by
      intro hnil
      rw [hnil] at hlast
      cases hlast
    refine ⟨b.files.getLast hne, ?_⟩
    rw [hdrop, List.dropLast_append_getLast hne]

theorem Browser.older_none (hb : b.older = none) : b.files.length < 2 := by
  rw [Browser.older] at hb
  cases hlast : b.files.dropLast.getLast? with
  | some entry =>
    rw [hlast] at hb
    cases hb
  | none =>
    have hlength := congrArg List.length (List.getLast?_eq_none_iff.1 hlast)
    rw [List.length_dropLast] at hlength
    rw [List.length_nil] at hlength
    omega

/-- A file is loaded. -/
theorem Agrees.load (ha : Agrees s b) {l : Loading} (hpreset : l.preset = false) (hbroke : l.broke = false) :
    Agrees (s.load l) (b.load l) := by
  rw [Stage2.load, Browser.load, hpreset, hbroke, Bool.and_false]
  dsimp only
  rw [if_neg Bool.false_ne_true]
  cases hopens : l.opens with
  | false =>
    rw [if_neg Bool.false_ne_true, if_neg Bool.false_ne_true, if_neg fun hopen => hopen.1.elim Bool.false_ne_true Bool.false_ne_true,
      if_neg fun hopen => Bool.false_ne_true hopen.1]
    exact ⟨ha.stacked, ha.still, ha.configFile, rfl, rfl, ha.bar, nofun⟩
  | true =>
    have hsaved := ha.stacked.save s.configFile
    rw [ha.configFile] at hsaved
    have hne (e : Entry) : Ring.push configFileHistoryEntries b.files e ≠ [] := by
      unfold Ring.push
      split
      · exact List.append_ne_nil_of_right_ne_nil _ (List.cons_ne_nil _ _)
      · exact List.append_ne_nil_of_right_ne_nil _ (List.cons_ne_nil _ _)
    rw [if_pos rfl, ha.configFile]
    split
    next hmenu =>
      rw [if_pos ⟨rfl, hmenu.2⟩]
      have hrestore :
          (s.history.save false b.configFile).restore ⟨0, l.defaultEntry⟩ = (⟨0, l.defaultEntry⟩, s.history.save false b.configFile) := by
        rw [History.restore, save_menuPos, ha.still]
      rw [hrestore]
      exact ⟨hsaved, ha.still, rfl, rfl, rfl, rfl, fun _ => hne _⟩
    next hmenu =>
      rw [if_neg fun hopen => hmenu ⟨.inr rfl, hopen.2⟩]
      exact ⟨hsaved, ha.still, rfl, rfl, rfl, ha.bar, nofun⟩

/-- A key goes back to a file that opens again, has a menu, and from which an entry was booted. -/
theorem Agrees.goBack {below : List Entry} (ha : Agrees s b) {l : Loading} (hfiles : b.files = below ++ [entry] ++ [top])
    (hpending : s.pending = false) (hpreset : l.preset = false) (hbroke : l.broke = false) (hopens : l.opens = true)
    (hmenu : 0 < l.numEntries) (hbar : entry.bar ≠ none) :
    ∃ configFile history, s.history.goBack s.pending s.configFile = some (configFile, history) ∧
      Agrees ({ s with configFile, history }.load l) (b.goBack l below entry) := by
  have hs := ha.stacked
  rw [hfiles] at hs
  obtain ⟨h', hback, hpos, -, hstacked, hslot⟩ := hs.goBack s.configFile
  obtain ⟨bar, hnoted⟩ := Option.ne_none_iff_exists'.1 hbar
  have hplace : (s.history.slots (place configFileHistoryEntries s.history.start below.length)).bar = bar := by
    have hbelow := hs.ring.take (below ++ [entry]).length
    rw [List.take_left] at hbelow
    exact hbelow.last.bar bar hnoted
  rw [hpending]
  refine ⟨_, h', hback, ?_⟩
  rw [Stage2.load, Browser.goBack, hpreset, hopens, hbroke, Bool.and_false, hnoted]
  dsimp only
  rw [if_neg Bool.false_ne_true, if_pos rfl, if_pos ⟨.inr rfl, hmenu⟩]
  have hrestore (bar' : Bar) : (h'.save false (store s.configFile 0 entry.filename)).restore bar' =
      (bar, { h'.save false (store s.configFile 0 entry.filename) with menuPos := none }) := by
    rw [History.restore, save_menuPos, hpos]
    dsimp only
    rw [hslot, hplace]
  rw [hrestore, ← ha.configFile]
  exact ⟨⟨hstacked.ring, hstacked.pos, hstacked.prev⟩, rfl, rfl, rfl, rfl, rfl,
    fun _ => List.append_ne_nil_of_right_ne_nil _ (List.cons_ne_nil _ _)⟩

/-- **The step.** -/
theorem Agrees.step (ha : Agrees s b) (e : Event) (hsound : b.Sound e) : Agrees (s.step e) (b.step e) := by
  have hshown := ha.shown
  cases e with
  | load file l =>
    cases file with
    | none => exact ha.load hsound.1 hsound.2
    | some name =>
      have hnamed : Agrees { s with configFile := store s.configFile 0 name } { b with configFile := store b.configFile 0 name } := by
        refine { ha with configFile := ?_ }
        show store s.configFile 0 name = store b.configFile 0 name
        rw [ha.configFile]
      exact hnamed.load hsound.1 hsound.2
  | master l =>
    rw [Stage2.step, Browser.step, hshown]
    split
    next hmenu =>
      obtain ⟨hpending, hpreset, hbroke⟩ := hsound hmenu
      have hnamed : Agrees { s with configFile := store s.configFile 0 (masterConfigFile ++ [0]) }
          { b with configFile := store b.configFile 0 (masterConfigFile ++ [0]) } := by
        refine { ha with configFile := ?_ }
        show store s.configFile 0 _ = store b.configFile 0 _
        rw [ha.configFile]
      rw [ha.pending, hpending, if_neg Bool.false_ne_true]
      exact hnamed.load hpreset hbroke
    next => exact ha
  | errnum pending => exact { ha with pending := rfl }
  | move bar =>
    rw [Stage2.step, Browser.step, hshown]
    split
    · exact ⟨ha.stacked, ha.still, ha.configFile, ha.pending, rfl, rfl, ha.loaded⟩
    · exact ha
  | boot =>
    rw [Stage2.step, Browser.step, hshown]
    cases hmenu : b.shown with
    | false => exact ha
    | true =>
      obtain ⟨files, top, hfiles⟩ := (List.eq_nil_or_concat' b.files).resolve_left (ha.loaded hmenu)
      have hs := ha.stacked
      rw [hfiles] at hs
      rw [hfiles, List.getLast?_concat, List.dropLast_concat, ha.bar]
      exact ⟨hs.record b.bar, ha.still, ha.configFile, ha.pending, rfl, rfl,
        fun _ => List.append_ne_nil_of_right_ne_nil _ (List.cons_ne_nil _ _)⟩
  | back l =>
    rw [Stage2.step, Browser.step, hshown]
    cases hmenu : b.shown with
    | false => exact ha
    | true =>
      rw [if_pos rfl]
      cases holder : b.older with
      | none =>
        have hrefused : s.history.goBack s.pending s.configFile = none := by
          have hfew := Browser.older_none holder
          have haccepted := mt (ha.stacked.goBack_isSome s.pending s.configFile).1 (Nat.not_le.2 hfew)
          exact Option.not_isSome_iff_eq_none.1 haccepted
        rw [hrefused]
        exact ha
      | some found =>
        obtain ⟨below, entry⟩ := found
        obtain ⟨top, hfiles⟩ := Browser.older_eq holder
        obtain ⟨hpending, hpreset, hbroke, hopens, hentries, hbar⟩ := hsound hmenu below entry holder
        obtain ⟨configFile, history, hback, hagrees⟩ := ha.goBack hfiles (ha.pending.trans hpending) hpreset hbroke hopens hentries hbar
        rw [hback]
        exact hagrees

/-- The run. -/
theorem Agrees.run (ha : Agrees s b) {events : List Event} (hsound : b.SoundRun events) : Agrees (s.run events) (b.run events) := by
  induction events generalizing s b with
  | nil => exact ha
  | cons e events ih => exact ih (ha.step e hsound.1) hsound.2

/-- **The history is a stack**: in every run whose steps meet the condition the indices stay in the ring, the state is
what the stack of the files says, and going back is accepted exactly when a file lies below the top one. -/
theorem history_stack {configFile : Nat → Byte} {events : List Event} (hsound : (Browser.start configFile).SoundRun events) :
    let s := (Stage2.start configFile).run events
    let b := (Browser.start configFile).run events
    (s.history.pos < configFileHistoryEntries ∧ s.history.start < configFileHistoryEntries ∧ s.history.prevPos < configFileHistoryEntries) ∧
    Agrees s b ∧ b.files.length < configFileHistoryEntries ∧
    ((s.history.goBack s.pending s.configFile).isSome = true ↔ b.older.isSome = true) := by
  intro s b
  have ha : Agrees s b := (agrees_start configFile).run hsound
  refine ⟨ha.stacked.range, ha, ha.stacked.ring.room, ?_⟩
  rw [ha.stacked.goBack_isSome]
  cases holder : b.older with
  | none => exact iff_of_false (Nat.not_le.2 (Browser.older_none holder)) nofun
  | some found =>
    obtain ⟨below, entry⟩ := found
    obtain ⟨top, hfiles⟩ := Browser.older_eq holder
    refine iff_of_true ?_ rfl
    rw [hfiles, List.length_append, List.length_append]
    exact Nat.le_add_left 2 _

/-- Two files, the first one booted from, and the way back. -/
def thereAndBack : List Event :=
  [.load (some [0x61, 0]) ⟨false, true, false, 3, 0⟩, .move ⟨0, 2⟩, .boot, .load (some [0x62, 0]) ⟨false, true, false, 5, 1⟩,
    .back ⟨false, true, false, 3, 0⟩]

theorem history_stack_thereAndBack :
    let s := (Stage2.start fun _ => 0).run thereAndBack
    let b := (Browser.start fun _ => 0).run thereAndBack
    (s.history.pos < configFileHistoryEntries ∧ s.history.start < configFileHistoryEntries ∧ s.history.prevPos < configFileHistoryEntries) ∧
    Agrees s b ∧ b.files.length < configFileHistoryEntries ∧
    ((s.history.goBack s.pending s.configFile).isSome = true ↔ b.older.isSome = true) := by
  apply history_stack
  refine ⟨⟨rfl, rfl⟩, trivial, trivial, ⟨rfl, rfl⟩, ?_, trivial⟩
  intro _ below entry holder
  obtain ⟨-, rfl⟩ := Prod.mk.inj (Option.some.inj holder)
  exact ⟨rfl, rfl, rfl, rfl, by decide, Option.some_ne_none _⟩

/-- The second file is left by going back, and its slot is taken by a file from which no entry is booted. -/
def slotTwice : List Event :=
  [.load (some [0x61, 0]) ⟨false, true, false, 12, 0⟩, .load (some [0x62, 0]) ⟨false, true, false, 12, 0⟩, .move ⟨0, 9⟩, .boot,
    .back ⟨false, true, false, 12, 0⟩,
    .load (some [0x63, 0]) ⟨false, true, false, 1, 0⟩, .load (some [0x64, 0]) ⟨false, true, false, 1, 0⟩, .back ⟨false, true, false, 1, 0⟩]

/-- The bar of the file that was dropped is put into the menu of the other one, which has one entry. -/
theorem history_stale : ((Stage2.start fun _ => 0).run slotTwice).bar = ⟨0, 9⟩ ∧ ((Browser.start fun _ => 0).run slotTwice).bar = ⟨0, 0⟩ ∧
    ((Browser.start fun _ => 0).run slotTwice).files.getLast?.map Entry.bar = some none := by
  decide +kernel

end TrustedGrub.Menu
