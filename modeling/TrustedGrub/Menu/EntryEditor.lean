import TrustedGrub.CharIo.Memmove
import TrustedGrub.Lib.PackedEdit
import TrustedGrub.Menu.Config
import TrustedGrub.Menu.Navigation

/-!
# The editor of an entry

`run_menu` without `config_entries`: the commands of an entry, packed in memory up to `heap`, and the keys that edit them in place.
The editor refines one on a list of lines. What the line editor returns comes with the key, and so does what else the program
leaves in the cells outside of the block.
-/

namespace TrustedGrub.Menu
open Fips180 (Byte)
open Memory (slice store)
open StringPool (move)
open CharIo (grubMemmove)

/-! ## The editor in memory -/

/-- A line that `get_cmdline` returns, when there are `NEW_HEAPSIZE + 1` bytes for it. -/
structure EnteredLine where
  text : List Byte
  chars : 0 ∉ text
  short : text.length ≤ newHeapsize

/-- A key of the editor. -/
structure EditKey where
  key : Key
  /-- The line that replaces the selected one. There is none when the line editor is left with ESC. -/
  entered : Option EnteredLine
  /-- `is_var_expand ()` -/
  expand : Bool
  /-- `errnum` is set when the lines are moved. -/
  pending : Bool
  /-- What is in the cells outside of the block afterwards. -/
  cells : Nat → Byte

/-- The variables of `run_menu` that the edits change. -/
structure Editor where
  menu : RunMenu
  mem : Nat → Byte
  menuEntries : Nat
  heap : Nat
  /-- The buffer of `var_sprint_buf`. -/
  varSprintBuffer : Nat

/-- `get_entry (menu_entries, num, 0)`: a number that is not positive passes by nothing. -/
def Editor.entry (s : Editor) (num : Int) : Option Nat :=
  (getEntry (slice s.mem s.menuEntries (s.heap - s.menuEntries)) num.toNat false).map fun list => s.heap - list.length

/-- `O`, after which `o` is no other key. -/
def Editor.openLine (s : Editor) (pending : Bool) (curEntry : Nat) : Editor :=
  let mem := grubMemmove pending s.mem (curEntry + 2) curEntry (s.heap - curEntry)
  let mem := store mem curEntry [0x20, 0]
  { s with mem, heap := s.heap + 2 }

/-- `d` -/
def Editor.removeLine (s : Editor) (pending : Bool) (curEntry ptr : Nat) : Editor :=
  let mem := grubMemmove pending s.mem curEntry ptr (s.heap - ptr)
  { s with mem, heap := s.heap - (ptr - curEntry) }

/-- `e`: the selected line is copied to behind the block, edited there, and copied back. -/
def Editor.editLine (s : Editor) (e : EditKey) (curEntry : Nat) : Editor :=
  let i := (Packed.text 0 (slice s.mem curEntry (s.heap - curEntry))).length + 1
  let newHeap := s.heap + newHeapsize + 1
  let mem := store s.mem newHeap (slice s.mem curEntry i ++ [0])
  let newHeap := if e.expand then s.varSprintBuffer else newHeap
  match e.entered with
  | none => { s with mem }
  | some line =>
    let mem := store mem newHeap (line.text ++ [0])
    let j := line.text.length + 1
    let mem := if j < 2 then store mem newHeap [0x20, 0] else mem
    let j := if j < 2 then 2 else j
    let mem := grubMemmove e.pending mem (curEntry + j) (curEntry + i) (s.heap - (curEntry + i))
    let mem := grubMemmove e.pending mem curEntry newHeap j
    { s with mem, heap := s.heap + j - i }

/-- What a key does to the block. -/
def Editor.edit (s : Editor) (e : EditKey) : Option Editor :=
  let c := e.key.c
  if s.menu.searchMode then some s
  else if c = 0x6F ∨ c = 0x4F then (s.entry (s.menu.editLines c).2.bar.entry).map (s.openLine e.pending)
  else if c = 0x64 then
    if 0 < s.menu.numEntries then
      (s.entry s.menu.bar.entry).bind fun curEntry => (s.entry (s.menu.bar.entry + 1)).map (s.removeLine e.pending curEntry)
    else some s
  else if c = 0x65 ∧ e.key.locked = false then (s.entry s.menu.bar.entry).map (s.editLine e)
  else some s

/-- The block as it is, and other cells around it. -/
def Editor.around (s : Editor) (cells : Nat → Byte) : Editor :=
  { s with mem := fun x => if s.menuEntries ≤ x ∧ x < s.heap then s.mem x else cells x }

def Editor.step (s : Editor) (e : EditKey) : Option Editor :=
  (s.menu.step (.key e.key)).bind fun menu => (s.edit e).map fun s => { s with menu }.around e.cells

def Editor.run (s : Editor) (keys : List EditKey) : Option Editor := keys.foldlM Editor.step s

/-- The strings that are copied, with their terminators, and how many there are: the entry ends with an empty one. -/
def copyEntry (curEntry : List Byte) : List Byte × Nat :=
  let text := Packed.text 0 curEntry
  let next := curEntry.drop (text.length + 1)
  if hsome : next.head?.any (· ≠ 0) then
    let (copied, newNumEntries) := copyEntry next
    (text ++ 0 :: copied, newNumEntries + 1)
  else (text ++ [0], 1)
termination_by curEntry.length
decreasing_by
  cases curEntry with
  | nil => exact absurd hsome Bool.false_ne_true
  | cons c l =>
    rw [List.length_drop, List.length_cons]
    omega

/-- `e` in the main menu: the commands of the entry are copied to the heap, and `run_menu` is called for them. -/
def openEntry (mem : Nat → Byte) (configEntries heap varSprintBuffer : Nat) (entry : Int) (dumb : Bool) : Option Editor :=
  (getEntry (slice mem configEntries (heap - configEntries)) entry.toNat true).map fun curEntry =>
    let (copied, newNumEntries) := copyEntry curEntry
    { menu := RunMenu.start newNumEntries ⟨0, 0⟩ false dumb
      mem := store mem heap (copied ++ [0])
      menuEntries := heap
      heap := heap + (copied.length + 1)
      varSprintBuffer }

/-! ## The editor on lines -/

/-- A list of lines, and the menu in which one of them is selected. -/
structure Document where
  menu : RunMenu
  lines : List (List Byte)

/-- A line is not empty. -/
def lineOf (text : List Byte) : List Byte := if text = [] then [0x20] else text

/-- The selected line is removed or replaced, or another one is put before or behind it. -/
def Document.edit (d : Document) (e : EditKey) : List (List Byte) :=
  let selected := d.menu.bar.entry.toNat
  if d.menu.searchMode then d.lines
  else if e.key.c = 0x6F then d.lines.insertIdx (selected + 1) [0x20]
  else if e.key.c = 0x4F then d.lines.insertIdx selected [0x20]
  else if e.key.c = 0x64 then d.lines.eraseIdx selected
  else if e.key.c = 0x65 ∧ e.key.locked = false then e.entered.elim d.lines fun line => d.lines.set selected (lineOf line.text)
  else d.lines

def Document.step (d : Document) (e : EditKey) : Option Document :=
  (d.menu.step (.key e.key)).map fun menu => ⟨menu, d.edit e⟩

def Document.run (d : Document) (keys : List EditKey) : Option Document := keys.foldlM Document.step d

/-! ## The block -/

variable {s : Editor} {lines : List (List Byte)} {k : Nat}

/-- The lines are packed in the cells of the block, which ends at `heap`. -/
structure Block (s : Editor) (lines : List (List Byte)) : Prop where
  proper : Packed.Proper 0 lines
  heap : s.heap = Packed.stop 0 lines s.menuEntries
  cells : Packed.Lies 0 s.mem s.menuEntries lines
  buffer : s.varSprintBuffer + (newHeapsize + 1) ≤ s.menuEntries

theorem lineOf_proper (line : EnteredLine) : 0 ∉ lineOf line.text ∧ lineOf line.text ≠ [] := by
  unfold lineOf
  split
  next => exact ⟨by decide, List.cons_ne_nil _ _⟩
  next hne => exact ⟨line.chars, hne⟩

namespace Block

theorem chars (h : Block s lines) : ∀ line ∈ lines, 0 ∉ line := fun line hline => (h.proper line hline).1

/-- What `run_script` reads from the block. -/
theorem texts (h : Block s lines) : Packed.texts 0 (slice s.mem s.menuEntries (s.heap - s.menuEntries)) = lines := by
  have hlen : s.heap - s.menuEntries = (Packed.group 0 lines).length := by
    rw [h.heap]
    exact Nat.add_sub_cancel_left _ _
  have hcells := h.cells
  unfold Packed.Lies at hcells
  rw [hlen, hcells, ← List.append_nil (Packed.group 0 lines)]
  exact Packed.texts_group h.proper []

theorem entry (h : Block s lines) (hk : k ≤ lines.length) {num : Int} (hnum : num.toNat = k) :
    s.entry num = some (Packed.start 0 lines s.menuEntries k) := by
  unfold Editor.entry getEntry
  rw [hnum, h.heap]
  exact h.cells.entry h.chars hk

theorem around (h : Block s lines) (cells : Nat → Byte) : Block (s.around cells) lines := by
  refine ⟨h.proper, h.heap, h.cells.congr fun x hlow hhigh => ?_, h.buffer⟩
  exact if_pos ⟨hlow, Nat.lt_of_lt_of_eq hhigh h.heap.symm⟩

theorem openLine (h : Block s lines) (hk : k ≤ lines.length) :
    Block (s.openLine false (Packed.start 0 lines s.menuEntries k)) (lines.insertIdx k [0x20]) := by
  refine ⟨fun line hline => ?_, ?_, ?_, h.buffer⟩
  · obtain rfl | hline := (List.mem_insertIdx hk).1 hline
    · exact ⟨by decide, List.cons_ne_nil _ _⟩
    · exact h.proper line hline
  · show s.heap + 2 = Packed.stop 0 (lines.insertIdx k [0x20]) s.menuEntries
    rw [h.heap, Packed.stop, Packed.stop, Packed.group_insertIdx 0 _ hk, Packed.group_take_drop 0 lines k]
    simp only [List.length_append, List.length_cons, List.length_nil]
    omega
  · unfold Editor.openLine
    rw [h.heap]
    exact h.cells.insert hk [0x20]

theorem removeLine (h : Block s lines) (hk : k < lines.length) :
    Block (s.removeLine false (Packed.start 0 lines s.menuEntries k) (Packed.start 0 lines s.menuEntries (k + 1))) (lines.eraseIdx k) := by
  refine ⟨fun line hline => h.proper line (List.mem_of_mem_eraseIdx hline), ?_, ?_, h.buffer⟩
  · show s.heap - (Packed.start 0 lines s.menuEntries (k + 1) - Packed.start 0 lines s.menuEntries k) =
      Packed.stop 0 (lines.eraseIdx k) s.menuEntries
    rw [h.heap, Packed.start_succ 0 hk, Nat.add_sub_cancel_left, Packed.stop, Packed.stop, Packed.group_eraseIdx, Packed.group_getElem 0 hk]
    simp only [List.length_append, List.length_cons, List.length_nil]
    omega
  · unfold Editor.removeLine
    rw [h.heap]
    exact h.cells.erase hk

theorem congr (h : Block s lines) {mem : Nat → Byte} (hsame : ∀ x, s.menuEntries ≤ x → x < s.heap → mem x = s.mem x) :
    Block { s with mem } lines := by
  rw [h.heap] at hsame
  exact ⟨h.proper, h.heap, h.cells.congr hsame, h.buffer⟩

/-- A line that is put back where the selected one was, from a place that what is moved does not reach. -/
theorem replace (h : Block s lines) (hk : k < lines.length) {line : List Byte} (hline : 0 ∉ line ∧ line ≠ [])
    (hshort : line.length ≤ newHeapsize)
    {newHeap : Nat} (hnew : slice s.mem newHeap (line.length + 1) = line ++ [0])
    (hplace : newHeap + (newHeapsize + 1) ≤ s.menuEntries ∨ s.heap + newHeapsize + 1 ≤ newHeap) :
    let curEntry := Packed.start 0 lines s.menuEntries k
    let i := lines[k].length + 1
    let j := line.length + 1
    Block { s with mem := move (move s.mem (curEntry + j) (curEntry + i) (s.heap - (curEntry + i))) curEntry newHeap j,
                   heap := s.heap + j - i }
      (lines.set k line) := by
  have hset := h.cells.set hk line
  have hsucc := Packed.start_succ 0 hk s.menuEntries
  have hstop := Packed.stop_sub_start 0 lines s.menuEntries (k + 1)
  have hheap : Packed.stop 0 lines s.menuEntries = s.menuEntries + (Packed.group 0 lines).length := rfl
  have hcur : Packed.start 0 lines s.menuEntries k = s.menuEntries + (Packed.lines 0 (lines.take k)).length := rfl
  have hgroup := congrArg List.length (Packed.group_getElem 0 hk)
  have hgroup' := congrArg List.length (Packed.group_set 0 line hk)
  simp only [List.length_append, List.length_singleton] at hgroup hgroup'
  dsimp only
  refine ⟨fun t ht => ?_, ?_, ?_, h.buffer⟩
  · obtain ht | rfl := List.mem_or_eq_of_mem_set ht
    · exact h.proper t ht
    · exact hline
  · show s.heap + (line.length + 1) - (lines[k].length + 1) = Packed.stop 0 (lines.set k line) s.menuEntries
    have hheap' : Packed.stop 0 (lines.set k line) s.menuEntries = s.menuEntries + (Packed.group 0 (lines.set k line)).length := rfl
    have hend := h.heap
    omega
  · rw [← hsucc, h.heap]
    unfold StringPool.move at hset ⊢
    rw [Memory.slice_store_disjoint, hnew]
    · exact hset
    · rw [Memory.slice_length]
      have hend := h.heap
      omega

/-- A string that is stored outside of the block. -/
theorem outside (h : Block s lines) {newHeap : Nat} {cells : List Byte} (hshort : cells.length ≤ newHeapsize + 1)
    (hplace : newHeap + (newHeapsize + 1) ≤ s.menuEntries ∨ s.heap ≤ newHeap) :
    Block { s with mem := store s.mem newHeap cells } lines := by
  refine h.congr fun x hlow hhigh => ?_
  obtain hbelow | habove := hplace
  · exact Memory.store_of_ge (by omega)
  · exact Memory.store_of_lt (by omega)

/-- The line that is put back, when the line editor has returned it. -/
theorem entered (h : Block s lines) (line : EnteredLine) {newHeap : Nat}
    (hplace : newHeap + (newHeapsize + 1) ≤ s.menuEntries ∨ s.heap ≤ newHeap) :
    let j := line.text.length + 1
    let mem := store s.mem newHeap (line.text ++ [0])
    let mem := if j < 2 then store mem newHeap [0x20, 0] else mem
    Block { s with mem } lines ∧ slice mem newHeap ((lineOf line.text).length + 1) = lineOf line.text ++ [0] ∧
      (if j < 2 then 2 else j) = (lineOf line.text).length + 1 := by
  have hlen : (line.text ++ [0]).length = line.text.length + 1 := List.length_append
  have hstored := h.outside (hlen.le.trans (Nat.succ_le_succ line.short)) hplace
  dsimp only
  by_cases hempty : line.text = []
  · have hj : line.text.length + 1 < 2 := by
      rw [hempty]
      decide
    have hspace : lineOf line.text = [0x20] := if_pos hempty
    rw [if_pos hj, if_pos hj, hspace]
    exact ⟨hstored.outside (by decide) hplace, Memory.slice_store _ _ rfl, rfl⟩
  · have hj : ¬ line.text.length + 1 < 2 := by
      have hpos := List.length_pos_iff.2 hempty
      omega
    have hsame : lineOf line.text = line.text := if_neg hempty
    rw [if_neg hj, if_neg hj, hsame]
    exact ⟨hstored, Memory.slice_store _ _ hlen, rfl⟩

theorem lineOf_short (line : EnteredLine) : (lineOf line.text).length ≤ newHeapsize := by
  unfold lineOf
  split
  · decide
  · exact line.short

/-- **`e`** on the selected line. -/
theorem editLine (h : Block s lines) (hk : k < lines.length) {e : EditKey} (hclear : e.pending = false) :
    Block (s.editLine e (Packed.start 0 lines s.menuEntries k)) (e.entered.elim lines fun line => lines.set k (lineOf line.text)) := by
  have hcopied : Block { s with
      mem := store s.mem (s.heap + newHeapsize + 1) (slice s.mem (Packed.start 0 lines s.menuEntries k) (lines[k].length + 1) ++ [0]) }
        lines :=
    h.congr fun x _ hhigh => Memory.store_of_lt (by omega)
  have htext :
      Packed.text 0 (slice s.mem (Packed.start 0 lines s.menuEntries k) (s.heap - Packed.start 0 lines s.menuEntries k)) = lines[k] := by
    rw [h.heap]
    exact h.cells.text h.chars hk
  have hplace : (if e.expand then s.varSprintBuffer else s.heap + newHeapsize + 1) + (newHeapsize + 1) ≤ s.menuEntries ∨
      s.heap + newHeapsize + 1 ≤ (if e.expand then s.varSprintBuffer else s.heap + newHeapsize + 1) := by
    split
    · exact .inl h.buffer
    · exact .inr (Nat.le_refl _)
  unfold Editor.editLine
  rw [htext, hclear]
  dsimp only
  cases e.entered with
  | none => exact hcopied
  | some line =>
    have hbehind : s.heap ≤ s.heap + newHeapsize + 1 := by omega
    have hplace' := hplace.imp_right hbehind.trans
    obtain ⟨hblock, hnew, hj⟩ := hcopied.entered line hplace'
    have hreplaced := hblock.replace hk (lineOf_proper line) (lineOf_short line) hnew hplace
    rw [← hj] at hreplaced
    exact hreplaced

end Block

/-! ## The number of the lines -/

variable {m : RunMenu} {key : Key} {next : Next} {c : Nat}

theorem editLines_numEntries (m : RunMenu) (c : Nat) : (m.editLines c).2.main = m.main ∧ (m.editLines c).2.numEntries =
    if c = 0x6F ∨ c = 0x4F then m.numEntries + 1 else if c = 0x64 ∧ 0 < m.numEntries then m.numEntries - 1 else m.numEntries := by
  unfold RunMenu.editLines
  by_cases hremove : c = 0x64
  · have hopen : ¬ (c = 0x6F ∨ c = 0x4F) := by omega
    rw [if_pos hremove, if_neg hopen]
    split
    next hsome => exact ⟨rfl, (if_pos ⟨hremove, hsome⟩).symm⟩
    next hnone => exact ⟨rfl, (if_neg fun h => hnone h.2).symm⟩
  · rw [if_neg hremove]
    split
    next hopen => exact ⟨rfl, (if_pos (.inl hopen)).symm⟩
    next hbehind =>
      split
      next hopen => exact ⟨rfl, (if_pos (.inr hopen)).symm⟩
      next hbefore =>
        refine ⟨rfl, ?_⟩
        rw [if_neg fun h => h.elim hbehind hbefore, if_neg fun h => hremove h.1]

theorem command_state (hmain : m.main = false) (key : Key) (c : Nat) : (m.command key c).state = (m.editLines c).2 := by
  have hother (hc : c ≠ 0x64 ∧ c ≠ 0x6F ∧ c ≠ 0x4F) : m.editLines c = (c, m) := by
    rw [RunMenu.editLines, if_neg hc.1, if_neg hc.2.1, if_neg hc.2.2]
  unfold RunMenu.command
  rw [hmain]
  by_cases hmaster : c = 0x4D
  · rw [if_pos hmaster, hother (by omega)]
    rfl
  · rw [if_neg hmaster, if_neg Bool.false_ne_true]
    generalize m.editLines c = edited
    obtain ⟨c', m₁⟩ := edited
    dsimp only
    split
    · rfl
    · split
      · rfl
      · exact (privileged_state m₁ key c').1

/-- The keys with which the number of the entries changes are handled as they are. -/
theorem handle_numEntries (hon : m.OnEntry) (hmain : m.main = false) (h : m.handle key = some next) :
    next.state.main = false ∧ next.state.numEntries = (m.editLines key.c).2.numEntries := by
  by_cases hedit : key.c = 0x64 ∨ key.c = 0x6F ∨ key.c = 0x4F
  · have hdigit : ¬ key.IsDigit := fun hdigit => by
      obtain ⟨hlow, hhigh⟩ := hdigit
      omega
    rw [handle_plain (by omega) hdigit] at h
    obtain rfl := Option.some.inj h
    have hmain₁ : RunMenu.main { m with shortcutBuf := [], bar := moveBar m.dumb m.numEntries key.c m.bar } = false := hmain
    rw [command_state hmain₁]
    obtain ⟨hmain', hnum⟩ := editLines_numEntries { m with shortcutBuf := [], bar := moveBar m.dumb m.numEntries key.c m.bar } key.c
    exact ⟨hmain'.trans hmain, hnum.trans (editLines_numEntries m key.c).2.symm⟩
  · unfold RunMenu.handle at h
    split at h
    next => cases h
    next m₁ hagain =>
      split at h
      next => cases h
      next c m₂ hshortcut =>
        obtain rfl := Option.some.inj h
        have hagain := searchAgain_within hon hagain
        have hwithin := hagain.trans (shortcut_within (hagain.onEntry hon) hshortcut)
        have hc := shortcut_key hshortcut
        have hmain₂ : RunMenu.main { m₂ with bar := moveBar m₂.dumb m₂.numEntries c m₂.bar } = false := hwithin.main.trans hmain
        rw [command_state hmain₂]
        obtain ⟨hmain', hnum⟩ := editLines_numEntries { m₂ with bar := moveBar m₂.dumb m₂.numEntries c m₂.bar } c
        rw [if_neg (by omega), if_neg (by omega)] at hnum
        refine ⟨hmain'.trans hmain₂, hnum.trans (hwithin.numEntries.trans ?_)⟩
        rw [(editLines_numEntries m key.c).2, if_neg (by omega), if_neg (by omega)]

theorem press_numEntries (hon : m.OnEntry) (hmain : m.main = false) (h : m.press key = some next) :
    next.state.main = false ∧ next.state.numEntries = if m.searchMode then m.numEntries else (m.editLines key.c).2.numEntries := by
  unfold RunMenu.press at h
  split at h
  next hsearch =>
    rw [if_pos hsearch]
    split at h
    next => cases h
    next m₁ hkey =>
      obtain rfl := Option.some.inj h
      have hwithin := searchKey_within hon hkey
      exact ⟨hwithin.main.trans hmain, hwithin.numEntries⟩
    next m₁ hkey =>
      obtain ⟨hlow, rfl⟩ := searchKey_goes hkey
      obtain ⟨hmain', hnum⟩ := handle_numEntries (m := { m with searchMode := false }) hon hmain h
      rw [(editLines_numEntries _ key.c).2, if_neg (by omega), if_neg (by omega)] at hnum
      exact ⟨hmain', hnum⟩
  next hsearch =>
    rw [if_neg hsearch]
    have hsame := startSearch_within m key
    obtain ⟨hmain', hnum⟩ := handle_numEntries (hsame.onEntry hon) (hsame.main.trans hmain) h
    refine ⟨hmain', hnum.trans ?_⟩
    rw [(editLines_numEntries _ key.c).2, (editLines_numEntries _ key.c).2, hsame.numEntries]

theorem resume_numEntries (h : next.resume key = some m) : m.main = next.state.main ∧ m.numEntries = next.state.numEntries := by
  cases next with
  | loop m₁ =>
    obtain rfl := Option.some.inj h
    exact ⟨rfl, rfl⟩
  | restart m₁ =>
    obtain rfl := Option.some.inj h
    exact ⟨rfl, rfl⟩
  | boot m₁ =>
    obtain rfl := Option.some.inj h
    cases key.fallback with
    | none => exact ⟨rfl, rfl⟩
    | some i => exact ⟨rfl, rfl⟩
  | leave m₁ => cases h

end TrustedGrub.Menu
