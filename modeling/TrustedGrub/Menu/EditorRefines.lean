import TrustedGrub.Menu.EntryEditor

/-!
# The editor of an entry edits its lines

From the entry that is opened on, every key does to the packed block what it does to the list of the lines, as long as the bar
is on one of them.
-/

namespace TrustedGrub.Menu
open Fips180 (Byte)
open Memory (slice store)
variable {s s' : Editor} {d d' : Document} {e : EditKey} {keys : List EditKey} {k : Nat}

/-- The block holds the lines of the document, and the menu has as many. -/
structure Represents (s : Editor) (d : Document) : Prop where
  menu : s.menu = d.menu
  main : d.menu.main = false
  numEntries : d.menu.numEntries = d.lines.length
  block : Block s d.lines

/-! ## A key -/

/-- `o` has moved the bar by now. -/
theorem editLines_entry (m : RunMenu) {c : Nat} (hc : c = 0x6F ∨ c = 0x4F) :
    (m.editLines c).2.bar.entry = if c = 0x6F then m.bar.entry + 1 else m.bar.entry := by
  unfold RunMenu.editLines Bar.entry
  rw [if_neg (by omega)]
  obtain rfl | rfl := hc
  · rw [if_pos rfl, if_pos rfl]
    dsimp only
    split
    · dsimp only
      omega
    · dsimp only
      omega
  · rfl

/-- **An edit** of the block is the edit of the lines. -/
theorem Represents.edit (h : Represents s d) (hon : d.menu.OnEntry) (hclear : e.pending = false) :
    ∃ s', s.edit e = some s' ∧ Block s' (d.edit e) := by
  obtain ⟨hlow, hhigh⟩ := hon.range
  have hselected : d.menu.bar.entry.toNat < d.lines.length := by
    have hnum := h.numEntries
    omega
  unfold Editor.edit Document.edit
  rw [h.menu, hclear]
  dsimp only
  by_cases hsearch : d.menu.searchMode = true
  · rw [if_pos hsearch, if_pos hsearch]
    exact ⟨s, rfl, h.block⟩
  · rw [if_neg hsearch, if_neg hsearch]
    by_cases hopen : e.key.c = 0x6F ∨ e.key.c = 0x4F
    · rw [if_pos hopen, editLines_entry d.menu hopen]
      by_cases hbehind : e.key.c = 0x6F
      · rw [if_pos hbehind, if_pos hbehind, h.block.entry (k := d.menu.bar.entry.toNat + 1) (by omega) (by omega)]
        exact ⟨_, rfl, h.block.openLine (by omega)⟩
      · rw [if_neg hbehind, if_neg hbehind, if_pos (hopen.resolve_left hbehind), h.block.entry (Nat.le_of_lt hselected) rfl]
        exact ⟨_, rfl, h.block.openLine (Nat.le_of_lt hselected)⟩
    · rw [if_neg hopen, if_neg fun hbehind => hopen (.inl hbehind), if_neg fun hbefore => hopen (.inr hbefore)]
      by_cases hremove : e.key.c = 0x64
      · rw [if_pos hremove, if_pos hremove, if_pos (by omega), h.block.entry (Nat.le_of_lt hselected) rfl,
          h.block.entry (k := d.menu.bar.entry.toNat + 1) (by omega) (by omega)]
        exact ⟨_, rfl, h.block.removeLine hselected⟩
      · rw [if_neg hremove, if_neg hremove]
        split
        · rw [h.block.entry (Nat.le_of_lt hselected) rfl]
          exact ⟨_, rfl, h.block.editLine hselected hclear⟩
        · exact ⟨s, rfl, h.block⟩

theorem Represents.edit_length (h : Represents s d) (hon : d.menu.OnEntry) (e : EditKey) :
    ((d.edit e).length : Int) = if d.menu.searchMode then d.menu.numEntries else (d.menu.editLines e.key.c).2.numEntries := by
  obtain ⟨hlow, hhigh⟩ := hon.range
  have hnum := h.numEntries
  have hselected : d.menu.bar.entry.toNat < d.lines.length := by omega
  unfold Document.edit
  rw [(editLines_numEntries d.menu e.key.c).2]
  dsimp only
  by_cases hsearch : d.menu.searchMode = true
  · rw [if_pos hsearch, if_pos hsearch, hnum]
  · rw [if_neg hsearch, if_neg hsearch]
    by_cases hbehind : e.key.c = 0x6F
    · rw [if_pos hbehind, if_pos (.inl hbehind), List.length_insertIdx_of_le_length hselected, hnum]
      rfl
    · rw [if_neg hbehind]
      by_cases hbefore : e.key.c = 0x4F
      · rw [if_pos hbefore, if_pos (.inr hbefore), List.length_insertIdx_of_le_length (Nat.le_of_lt hselected), hnum]
        rfl
      · have hopen : ¬ (e.key.c = 0x6F ∨ e.key.c = 0x4F) := by omega
        rw [if_neg hbefore, if_neg hopen]
        by_cases hremove : e.key.c = 0x64
        · rw [if_pos hremove, if_pos ⟨hremove, by omega⟩, List.length_eraseIdx_of_lt hselected]
          omega
        · have hstill : ¬ (e.key.c = 0x64 ∧ 0 < d.menu.numEntries) := fun hgone => hremove hgone.1
          rw [if_neg hremove, if_neg hstill, hnum]
          split
          · cases e.entered with
            | none => rfl
            | some line => exact congrArg _ List.length_set
          · rfl

/-- **One key.** Where the document comes to, the block does, and nowhere else. -/
theorem Represents.step (h : Represents s d) (hon : d.menu.OnEntry) (hclear : e.pending = false) :
    Option.Rel Represents (s.step e) (d.step e) := by
  obtain ⟨s', hedit, hblock⟩ := h.edit hon hclear
  unfold Editor.step Document.step
  rw [h.menu, hedit]
  cases hstep : d.menu.step (.key e.key) with
  | none => exact .none
  | some menu =>
    obtain ⟨next, hpress, hresume⟩ := Option.bind_eq_some_iff.1 hstep
    obtain ⟨hmain, hnum⟩ := press_numEntries hon h.main hpress
    obtain ⟨hmain', hnum'⟩ := resume_numEntries hresume
    refine .some ⟨rfl, hmain'.trans hmain, ?_, ?_⟩
    · exact hnum'.trans (hnum.trans (h.edit_length hon e).symm)
    · have hsame : Block { s' with menu } (d.edit e) := ⟨hblock.proper, hblock.heap, hblock.cells, hblock.buffer⟩
      exact hsame.around e.cells

/-! ## Runs -/

def EditKey.event (e : EditKey) : MenuEvent := .key e.key

/-- The induction is on the keys. The bar stays on a line, and so every key is one for a line that there is. -/
theorem Represents.run (h : Represents s d) (hon : d.menu.OnEntry) (hclear : ∀ e ∈ keys, e.pending = false)
    (hkeeps : d.menu.KeepsBar (keys.map EditKey.event)) :
    Option.Rel Represents (s.run keys) (d.run keys) := by
  induction keys generalizing s d with
  | nil => exact .some h
  | cons e keys ih =>
    obtain ⟨hfirst, hclear⟩ := List.forall_mem_cons.1 hclear
    have hrel := h.step hon hfirst
    unfold Editor.run Document.run
    rw [List.foldlM_cons, List.foldlM_cons]
    cases hdoc : d.step e with
    | none =>
      rw [hdoc] at hrel
      cases hblock : s.step e with
      | none => exact .none
      | some s' =>
        rw [hblock] at hrel
        cases hrel
    | some d' =>
      rw [hdoc] at hrel
      cases hblock : s.step e with
      | none =>
        rw [hblock] at hrel
        cases hrel
      | some s' =>
        rw [hblock] at hrel
        cases hrel with
        | some hnext =>
          obtain ⟨menu, hstep, rfl⟩ := Option.map_eq_some_iff.1 hdoc
          obtain ⟨hstays, hrest⟩ := hkeeps menu hstep
          exact ih hnext ((step_onEntry hon hstep).1 hstays) hclear hrest

/-! ## The entry that is opened -/

theorem copyEntry_group {ss : List (List Byte)} (hproper : Packed.Proper 0 ss) (hne : ss ≠ []) (l : List Byte) :
    copyEntry (Packed.group 0 ss ++ l) = (Packed.lines 0 ss, ss.length) := by
  induction ss with
  | nil => exact absurd rfl hne
  | cons t ss ih =>
    have htext : Packed.text 0 (Packed.group 0 (t :: ss) ++ l) = t := by
      rw [Packed.group_cons]
      exact Packed.text_line (hproper t List.mem_cons_self).1 _
    have hnext : (Packed.group 0 (t :: ss) ++ l).drop (t.length + 1) = Packed.group 0 ss ++ l := by
      rw [Packed.group_line, List.append_assoc]
      exact List.drop_left' List.length_append
    rw [copyEntry.eq_def, htext]
    dsimp only
    rw [hnext]
    cases ss with
    | nil =>
      have hend : ¬ (Packed.group 0 [] ++ l).head?.any (· ≠ 0) = true := Bool.false_ne_true
      have hone : Packed.lines 0 [t] = t ++ [0] := List.append_nil _
      rw [dif_neg hend, hone]
      rfl
    | cons u ss =>
      have hproper' : Packed.Proper 0 (u :: ss) := fun v hv => hproper v (List.mem_cons_of_mem t hv)
      have hsome : (Packed.group 0 (u :: ss) ++ l).head?.any (· ≠ 0) = true := by
        obtain ⟨hu, hune⟩ := hproper' u List.mem_cons_self
        cases u with
        | nil => exact absurd rfl hune
        | cons c u =>
          rw [Packed.group_cons]
          exact decide_eq_true fun hc => hu (hc ▸ List.mem_cons_self)
      rw [dif_pos hsome, ih hproper' (List.cons_ne_nil u ss)]
      have hlines := Packed.lines_cons 0 t (u :: ss) []
      rw [List.append_nil, List.append_nil] at hlines
      rw [hlines]
      rfl

/-- The editor starts with the commands of the entry, and with the bar on the first of them. -/
theorem openEntry_represents {gs : List (List (List Byte))} {mem : Nat → Byte} {configEntries heap varSprintBuffer : Nat} {rest : List Byte}
    (hcells : slice mem configEntries (heap - configEntries) = gs.flatMap (Packed.group 0) ++ rest)
    (hproper : ∀ g ∈ gs, Packed.Proper 0 g ∧ g ≠ [])
    (hk : k < gs.length) (hbuffer : varSprintBuffer + (newHeapsize + 1) ≤ heap) (dumb : Bool) :
    ∃ s, openEntry mem configEntries heap varSprintBuffer k dumb = some s ∧
      Represents s ⟨RunMenu.start gs[k].length ⟨0, 0⟩ false dumb, gs[k]⟩ := by
  obtain ⟨hgroup, hne⟩ := hproper _ (List.getElem_mem hk)
  have hentry : getEntry (slice mem configEntries (heap - configEntries)) (k : Int).toNat true =
      some (Packed.group 0 gs[k] ++ ((gs.drop (k + 1)).flatMap (Packed.group 0) ++ rest)) := by
    unfold getEntry
    rw [hcells, Int.toNat_natCast, Packed.entry_groups hproper (Nat.le_of_lt hk), List.drop_eq_getElem_cons hk, List.flatMap_cons,
      List.append_assoc]
  unfold openEntry
  rw [hentry, Option.map_some, copyEntry_group hgroup hne]
  refine ⟨_, rfl, rfl, rfl, rfl, hgroup, ?_, ?_, hbuffer⟩
  · show heap + ((Packed.lines 0 gs[k]).length + 1) = heap + (Packed.group 0 gs[k]).length
    rw [Packed.group, List.length_append, List.length_singleton]
  · exact Memory.slice_store mem heap rfl

/-- **The editor of an entry**, from when it is opened on, is an editor of the lines of the entry: as long as the bar stays on one
of them and no error is pending, every key removes, opens or replaces the line that is selected and leaves the others as they are.
`num_entries` is the number of the lines, `heap` is behind the block, and what is booted from the block are the lines. -/
theorem editor_refines {gs : List (List (List Byte))} {mem : Nat → Byte} {configEntries heap varSprintBuffer : Nat} {rest : List Byte}
    {dumb : Bool}
    (hcells : slice mem configEntries (heap - configEntries) = gs.flatMap (Packed.group 0) ++ rest)
    (hproper : ∀ g ∈ gs, Packed.Proper 0 g ∧ g ≠ [])
    (hk : k < gs.length) (hbuffer : varSprintBuffer + (newHeapsize + 1) ≤ heap)
    (hclear : ∀ e ∈ keys, e.pending = false) (hkeeps : (RunMenu.start gs[k].length ⟨0, 0⟩ false dumb).KeepsBar (keys.map EditKey.event)) :
    ∃ s, openEntry mem configEntries heap varSprintBuffer k dumb = some s ∧
      Option.Rel (fun s d => s.menu = d.menu ∧ d.menu.numEntries = d.lines.length ∧
          Packed.texts 0 (slice s.mem s.menuEntries (s.heap - s.menuEntries)) = d.lines ∧
          s.heap = s.menuEntries + ((d.lines.map fun line => line.length + 1).sum + 1))
        (s.run keys) (Document.run ⟨RunMenu.start gs[k].length ⟨0, 0⟩ false dumb, gs[k]⟩ keys) := by
  obtain ⟨s, hopen, hrepresents⟩ := openEntry_represents hcells hproper hk hbuffer dumb
  have hpos := List.length_pos_iff.2 (hproper _ (List.getElem_mem hk)).2
  have hzero : Bar.OnEntry true gs[k].length ⟨0, 0⟩ :=
    ⟨Int.le_refl 0, Int.le_refl 0, Int.natCast_pos.2 hpos, .inl rfl, fun h => Bool.noConfusion h⟩
  have hon : (RunMenu.start gs[k].length ⟨0, 0⟩ false dumb).OnEntry := hzero.settle dumb
  have hrun := hrepresents.run hon hclear hkeeps
  refine ⟨s, hopen, ?_⟩
  generalize s.run keys = s', Document.run _ keys = d' at hrun ⊢
  cases hrun with
  | none => exact .none
  | some h =>
    refine .some ⟨h.menu, h.numEntries, h.block.texts, ?_⟩
    rw [← Packed.group_length]
    exact h.block.heap

/-- `o`, and then `e` for a line with an `x`. -/
def openAndReplace : List EditKey :=
  [⟨plainKey 0x6F, none, false, false, fun _ => 0⟩, ⟨plainKey 0x65, some ⟨[0x78], by decide, by decide⟩, false, false, fun _ => 0⟩]

/-- An entry with the commands `a` and `b`. -/
theorem editor_refines_opened : ∃ s s', openEntry (fun x => [0x61, 0, 0x62, 0, 0].getD (x - 2000) 0) 2000 2005 0 0 false = some s ∧
    s.run openAndReplace = some s' ∧ Packed.texts 0 (slice s'.mem s'.menuEntries (s'.heap - s'.menuEntries)) =
      [[0x61], [0x78], [0x62]] := by
  have hother (m : RunMenu) (c : Nat) (hc : c ≠ 3 ∧ c ≠ 0x64) : ¬ m.LosesBar (.key (plainKey c)) := by
    rintro (hkey | ⟨m', -, i, hnone, -⟩)
    · exact hkey.elim (fun h => hc.1 h.1) fun h => hc.2 h.2.2.1
    · cases hnone
  have hproper : ∀ g ∈ [[[(0x61 : Byte)], [0x62]]], Packed.Proper 0 g ∧ g ≠ [] := by
    unfold Packed.Proper
    decide
  have hkeeps : (RunMenu.start 2 ⟨0, 0⟩ false false).KeepsBar (openAndReplace.map EditKey.event) :=
    fun _ _ => ⟨hother _ _ (by decide), fun _ _ => ⟨hother _ _ (by decide), trivial⟩⟩
  have hcells : slice (fun x => [0x61, 0, 0x62, 0, 0].getD (x - 2000) 0) 2000 (2005 - 2000) =
      [[[(0x61 : Byte)], [0x62]]].flatMap (Packed.group 0) ++ [] := by decide
  have hbuffer : 0 + (newHeapsize + 1) ≤ 2005 := by decide
  obtain ⟨s, hopen, hrun⟩ := editor_refines hcells hproper Nat.zero_lt_one hbuffer (by decide) hkeeps
  have hdoc : ∃ menu, Document.run ⟨RunMenu.start 2 ⟨0, 0⟩ false false, [[0x61], [0x62]]⟩ openAndReplace =
    some ⟨menu, [[0x61], [0x78], [0x62]]⟩ := ⟨_, rfl⟩
  obtain ⟨menu, hdoc⟩ := hdoc
  generalize hblock : s.run openAndReplace = s', hlines : Document.run _ openAndReplace = d' at hrun
  have hend := hlines.symm.trans hdoc
  cases hrun with
  | none => cases hend
  | some h =>
    obtain rfl := Option.some.inj hend
    exact ⟨s, _, hopen, hblock, h.2.2.1⟩

end TrustedGrub.Menu
