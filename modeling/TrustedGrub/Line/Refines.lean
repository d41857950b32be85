import TrustedGrub.Line.Editor

/-!
# The line editor edits lines

The buffers show the text, what has been killed and the history of the editor, and every key keeps it so.
-/

namespace TrustedGrub.Line
open Fips180 (Byte)
open Memory (slice)
open StringPool (Holds)

variable {s s' : State} {e e' : Editor} {t : List Byte} {n : Nat}

/-- The kill buffer and the history. -/
structure Buffers (s : State) (e : Editor) : Prop where
  kill : Holds 0 s.mem killBuf e.kill
  killFits : e.kill.length < maxCmdline
  numHistory : s.numHistory = e.history.length
  historyFits : e.history.length ≤ historySize
  lines : ∀ i line, e.history[i]? = some line → Holds 0 s.mem (historyBuf + maxCmdline * i) line ∧ line.length < maxCmdline

/-- The buffers show the editor, and no error is pending. -/
structure Shows (s : State) (e : Editor) : Prop extends Buffers s e where
  clear : s.pending = false
  text : Holds 0 s.mem cmdlineBuf e.text
  textFits : e.text.length < maxCmdline
  llen : s.llen = e.text.length
  lpos : s.lpos = e.cursor
  cursor : e.cursor ≤ e.text.length
  maxlen : s.maxlen ≤ maxCmdline
  history : s.history = e.place.elim (-1) fun i => (i : Int)
  place : ∀ i, e.place = some i → i < e.history.length ∧ Holds 0 s.cmdline 0 e.saved ∧ e.saved.length < maxCmdline

theorem fits_addressSpace (h : n < maxCmdline) : n < addressSpace := by
  have hsize : maxCmdline < addressSpace := by decide
  omega

theorem str_eq {m : Nat → Byte} {p : Nat} (h : Holds 0 m p t) (hfits : t.length < maxCmdline) : str m p = t :=
  h.read (fits_addressSpace hfits)

theorem Shows.buf (h : Shows s e) : s.buf = e.text := str_eq h.text h.textFits

/-! ## The screen -/

/-- Only what is shown on the screen may be different. -/
structure OnScreen (s s' : State) : Prop where
  pending : s'.pending = s.pending
  mem : s'.mem = s.mem
  cmdline : s'.cmdline = s.cmdline
  numHistory : s'.numHistory = s.numHistory
  maxlen : s'.maxlen = s.maxlen
  echoChar : s'.echoChar = s.echoChar
  readline : s'.readline = s.readline
  llen : s'.llen = s.llen
  lpos : s'.lpos = s.lpos
  history : s'.history = s.history

theorem Buffers.screen (h : Buffers s e) (hscreen : OnScreen s s') : Buffers s' e where
  kill := by
    rw [hscreen.mem]
    exact h.kill
  killFits := h.killFits
  numHistory := hscreen.numHistory.trans h.numHistory
  historyFits := h.historyFits
  lines := by
    rw [hscreen.mem]
    exact h.lines

theorem Shows.screen (h : Shows s e) (hscreen : OnScreen s s') : Shows s' e where
  toBuffers := h.toBuffers.screen hscreen
  clear := hscreen.pending.trans h.clear
  text := by
    rw [hscreen.mem]
    exact h.text
  textFits := h.textFits
  llen := hscreen.llen.trans h.llen
  lpos := hscreen.lpos.trans h.lpos
  cursor := h.cursor
  maxlen := hscreen.maxlen.le.trans h.maxlen
  history := hscreen.history.trans h.history
  place := by
    rw [hscreen.cmdline]
    exact h.place

theorem clRefresh_screen (s : State) (full : Bool) : OnScreen s (s.clRefresh full) := ⟨rfl, rfl, rfl, rfl, rfl, rfl, rfl, rfl, rfl, rfl⟩

theorem clBackward_screen (s : State) (count : Nat) : OnScreen { s with lpos := s.lpos - count } (s.clBackward count) := by
  unfold State.clBackward
  dsimp only
  split
  · exact clRefresh_screen _ true
  · split
    · exact clRefresh_screen _ true
    · exact ⟨rfl, rfl, rfl, rfl, rfl, rfl, rfl, rfl, rfl, rfl⟩

theorem clForward_screen (s : State) (count : Nat) : OnScreen { s with lpos := s.lpos + count } (s.clForward count) := by
  unfold State.clForward
  dsimp only
  split
  · exact clRefresh_screen _ true
  · exact ⟨rfl, rfl, rfl, rfl, rfl, rfl, rfl, rfl, rfl, rfl⟩

/-- What a key leaves of the arguments. -/
structure SameCall (s s' : State) : Prop where
  maxlen : s'.maxlen = s.maxlen
  echoChar : s'.echoChar = s.echoChar
  readline : s'.readline = s.readline

theorem SameCall.refl (s : State) : SameCall s s := ⟨rfl, rfl, rfl⟩

theorem SameCall.trans {s₁ : State} (h : SameCall s s₁) (h' : SameCall s₁ s') : SameCall s s' :=
  ⟨h'.maxlen.trans h.maxlen, h'.echoChar.trans h.echoChar, h'.readline.trans h.readline⟩

/-- The next state shows what the editor comes to. -/
structure Step (s s' : State) (e' : Editor) : Prop where
  shows : Shows s' e'
  call : SameCall s s'

theorem Step.refl (h : Shows s e) : Step s s e := ⟨h, .refl s⟩

theorem Step.then {s₁ : State} (h : Step s s₁ e) (h' : Step s₁ s' e') : Step s s' e' := ⟨h'.shows, h.call.trans h'.call⟩

/-! ## The cursor -/

theorem Shows.withCursor (h : Shows s e) (hn : n ≤ e.text.length) : Shows { s with lpos := n } { e with cursor := n } :=
  ⟨⟨h.kill, h.killFits, h.numHistory, h.historyFits, h.lines⟩, h.clear, h.text, h.textFits, h.llen, rfl, hn, h.maxlen, h.history, h.place⟩

theorem Shows.backward (h : Shows s e) (n : Nat) : Step s (s.clBackward n) (e.backward n) := by
  have hscreen := clBackward_screen s n
  have hcursor := h.withCursor (n := e.cursor - n) ((Nat.sub_le _ _).trans h.cursor)
  refine ⟨?_, hscreen.maxlen, hscreen.echoChar, hscreen.readline⟩
  rw [← h.lpos] at hcursor
  have hshows := hcursor.screen hscreen
  rw [h.lpos] at hshows
  exact hshows

theorem Shows.forward (h : Shows s e) (hn : e.cursor + n ≤ e.text.length) : Step s (s.clForward n) (e.forward n) := by
  have hscreen := clForward_screen s n
  have hcursor := h.withCursor hn
  refine ⟨?_, hscreen.maxlen, hscreen.echoChar, hscreen.readline⟩
  rw [← h.lpos] at hcursor
  have hshows := hcursor.screen hscreen
  rw [h.lpos] at hshows
  exact hshows

/-! ## Characters -/

/-- The line changes, within its buffer. -/
theorem Shows.withText (h : Shows s e) {m : Nat → Byte} {t : List Byte} {n : Nat} (hmem : ∀ x, maxCmdline ≤ x → m x = s.mem x)
    (ht : Holds 0 m cmdlineBuf t)
    (hfits : t.length < maxCmdline) (hn : n ≤ t.length) :
    Shows { s with mem := m, llen := t.length, lpos := n } { e with text := t, cursor := n } := by
  have houtside {p : Nat} {t : List Byte} (hp : maxCmdline ≤ p) (hholds : Holds 0 s.mem p t) : Holds 0 m p t :=
    hholds.congr fun x hlo _ => hmem x (hp.trans hlo)
  refine ⟨⟨houtside (Nat.le_refl _) h.kill, h.killFits, h.numHistory, h.historyFits, fun i line hline => ?_⟩, h.clear, ht, hfits, rfl, rfl,
    hn,
    h.maxlen, h.history, h.place⟩
  obtain ⟨hholds, hlen⟩ := h.lines i line hline
  refine ⟨houtside ?_ hholds, hlen⟩
  show maxCmdline ≤ cmdlineBuf + maxCmdline + maxCmdline + maxCmdline * i
  omega

/-- The text before the cursor, and behind it. -/
theorem Shows.parts (h : Shows s e) : Holds 0 s.mem cmdlineBuf (e.text.take e.cursor ++ e.text.drop e.cursor) := by
  rw [List.take_append_drop]
  exact h.text

theorem Shows.take_length (h : Shows s e) : (e.text.take e.cursor).length = e.cursor := List.length_take_of_le h.cursor

/-- The memory, when characters have been put in. -/
def insertedMem (s : State) (t : List Byte) : Nat → Byte :=
  if s.lpos = s.llen then Memory.store s.mem (cmdlineBuf + s.lpos) (t ++ [0])
  else Memory.store (StringPool.move s.mem (cmdlineBuf + s.lpos + t.length) (cmdlineBuf + s.lpos) (s.llen - s.lpos + 1))
    (cmdlineBuf + s.lpos) t

theorem moved_clear (h : s.pending = false) (dst src n : Nat) : s.moved dst src n = StringPool.move s.mem dst src n := by
  rw [State.moved, h, CharIo.grubMemmove_clear]

theorem copied_clear (h : s.pending = false) (m : Nat → Byte) (dst : Nat) (bytes : List Byte) :
    s.copied m dst bytes = Memory.store m dst bytes := by
  rw [State.copied, h, if_neg Bool.false_ne_true]

theorem clInsert_eq (h : s.pending = false) (t : List Byte) : s.clInsert t =
    if (s.llen + t.length : Int) < s.maxlen then
      ({ s with mem := insertedMem s t, llen := s.llen + t.length, lpos := s.lpos + t.length } : State).clRefresh
        (s.xpos + t.length ≥ cmdlineWidth)
    else s := by
  unfold State.clInsert insertedMem
  simp only [moved_clear h, copied_clear h]

theorem clDelete_eq (h : s.pending = false) (n : Nat) : s.clDelete n = ({ s with
    mem := StringPool.move s.mem (cmdlineBuf + s.lpos) (cmdlineBuf + s.lpos + n) (s.llen - n + 1)
    llen := s.llen - n } : State).clRefresh false := by
  rw [State.clDelete, moved_clear h]

theorem Shows.insertedMem (h : Shows s e) (ht : (0 : Byte) ∉ t) (hroom : e.text.length + t.length < maxCmdline) :
    (∀ x, maxCmdline ≤ x → Line.insertedMem s t x = s.mem x) ∧
      Holds 0 (Line.insertedMem s t) cmdlineBuf (e.text.take e.cursor ++ (t ++ e.text.drop e.cursor)) := by
  have hcursor := h.cursor
  have hzero : cmdlineBuf = 0 := rfl
  unfold Line.insertedMem
  rw [h.llen, h.lpos]
  split
  next hend =>
    refine ⟨fun x hx => Memory.store_of_ge ?_, ?_⟩
    · rw [List.length_append, List.length_singleton]
      omega
    · rw [hend, List.take_length, List.drop_length, List.append_nil]
      exact h.text.extend ht
  next hinside =>
    refine ⟨fun x hx => ?_, ?_⟩
    · rw [Memory.store_of_ge (by omega)]
      refine Memory.store_of_ge ?_
      rw [Memory.slice_length]
      omega
    · have hinserted := h.parts.insert ht
      rwa [h.take_length, List.length_drop] at hinserted

/-- **`cl_insert`.** -/
theorem Shows.insert (h : Shows s e) (ht : (0 : Byte) ∉ t) : Step s (s.clInsert t) (e.insert s.maxlen t) := by
  rw [clInsert_eq h.clear, Editor.insert, h.llen]
  split
  next hroom =>
    have hmax := h.maxlen
    have hcursor := h.cursor
    have hlen : (e.text.take e.cursor ++ (t ++ e.text.drop e.cursor)).length = e.text.length + t.length := by
      rw [List.length_append, List.length_append, List.length_drop, h.take_length]
      omega
    have hbound : e.text.length + t.length < maxCmdline := by omega
    obtain ⟨hsame, hholds⟩ := h.insertedMem ht hbound
    have hshows := h.withText hsame hholds (hlen ▸ hbound) (n := e.cursor + t.length) (by omega)
    rw [hlen] at hshows
    refine ⟨?_, rfl, rfl, rfl⟩
    rw [h.lpos]
    exact hshows.screen (clRefresh_screen _ _)
  next => exact .refl h

/-- **`cl_delete`**, when what it moves lies in the buffer. -/
theorem Shows.delete (h : Shows s e) (hn : e.cursor + n ≤ e.text.length) (hmoved : e.cursor + e.text.length < maxCmdline + n) :
    Step s (s.clDelete n) (e.delete n) := by
  have hzero : cmdlineBuf = 0 := rfl
  have htext : e.text = e.text.take e.cursor ++ ((e.text.drop e.cursor).take n ++ e.text.drop (e.cursor + n)) := by
    rw [← List.drop_drop, List.take_append_drop, List.take_append_drop]
  have hholds := h.text
  rw [htext] at hholds
  have hcount : ((e.text.drop e.cursor).take n).length = n := by
    rw [List.length_take_of_le]
    rw [List.length_drop]
    omega
  have hdeleted := hholds.delete (n := e.text.length - n + 1) (by rw [List.length_drop]; omega)
  rw [h.take_length, hcount] at hdeleted
  have hlen : (e.text.take e.cursor ++ e.text.drop (e.cursor + n)).length = e.text.length - n := by
    rw [List.length_append, List.length_drop, h.take_length]
    omega
  have hshows := h.withText (fun x hx => ?_) hdeleted (by omega) (n := e.cursor) (by omega)
  · rw [hlen] at hshows
    refine ⟨?_, rfl, rfl, rfl⟩
    have hcall : s.clDelete n = ({ s with
        mem := StringPool.move s.mem (cmdlineBuf + s.lpos) (cmdlineBuf + s.lpos + n) (s.llen - n + 1)
        llen := s.llen - n, lpos := s.lpos } : State).clRefresh false := clDelete_eq h.clear n
    rw [hcall, h.lpos, h.llen]
    exact hshows.screen (clRefresh_screen _ false)
  · refine Memory.store_of_ge ?_
    rw [Memory.slice_length]
    omega

/-! ## The kill buffer -/

/-- The kill buffer changes. -/
theorem Shows.withKill (h : Shows s e) {m : Nat → Byte} (hmem : ∀ x, x < killBuf ∨ historyBuf ≤ x → m x = s.mem x)
    (ht : Holds 0 m killBuf t)
    (hfits : t.length < maxCmdline) : Shows { s with mem := m } { e with kill := t } := by
  have htext := h.textFits
  refine ⟨⟨ht, hfits, h.numHistory, h.historyFits, fun i line hline => ?_⟩, h.clear, ?_, h.textFits, h.llen, h.lpos, h.cursor, h.maxlen,
    h.history, h.place⟩
  · obtain ⟨hholds, hlen⟩ := h.lines i line hline
    refine ⟨hholds.congr fun x hlo _ => hmem x (.inr ?_), hlen⟩
    exact (Nat.le_add_right historyBuf _).trans hlo
  · refine h.text.congr fun x _ hhi => hmem x (.inl ?_)
    have hkill : killBuf = cmdlineBuf + maxCmdline := rfl
    omega

theorem killBackward_eq (h : s.pending = false) : s.killBackward =
    if s.lpos = 0 then s
    else (({ s with mem := Memory.store (StringPool.move s.mem killBuf cmdlineBuf s.lpos) (killBuf + s.lpos) [0] } : State).clBackward
      s.lpos).clDelete s.lpos := by
  unfold State.killBackward
  simp only [moved_clear h]

/-- **C-u** -/
theorem Shows.killBackward (h : Shows s e) : Step s s.killBackward e.killBackward := by
  have hcursor := h.cursor
  have hfits := h.textFits
  have hlpos := h.lpos
  rw [killBackward_eq h.clear, Editor.killBackward, ← hlpos]
  split
  next => exact .refl h
  next =>
    have hlen : (e.text.take s.lpos).length = s.lpos := by
      rw [hlpos]
      exact h.take_length
    have hstart : slice s.mem cmdlineBuf s.lpos = e.text.take s.lpos := by
      have hleft := h.parts.slice_left
      rwa [← hlpos, hlen] at hleft
    have hchars : (0 : Byte) ∉ e.text.take s.lpos := fun hin => h.text.chars (List.mem_of_mem_take hin)
    have hstore : Memory.store (StringPool.move s.mem killBuf cmdlineBuf s.lpos) (killBuf + s.lpos) [0] =
        Memory.store s.mem killBuf (e.text.take s.lpos ++ [0]) := by
      rw [StringPool.move, hstart, Memory.store_append, hlen]
    have hhistory : historyBuf = killBuf + maxCmdline := rfl
    have hkill := h.withKill (m := Memory.store s.mem killBuf (e.text.take s.lpos ++ [0])) (t := e.text.take s.lpos)
      (fun x hx => hx.elim Memory.store_of_lt fun hx => Memory.store_of_ge (by rw [List.length_append, hlen, List.length_singleton]; omega))
      (StringPool.holds_store _ _ hchars) (by omega)
    have hback := hkill.backward s.lpos
    have hdelete := hback.shows.delete (n := s.lpos) (by show e.cursor - s.lpos + s.lpos ≤ e.text.length; omega)
      (by show e.cursor - s.lpos + e.text.length < maxCmdline + s.lpos; omega)
    have hresult : (({ e with kill := e.text.take s.lpos } : Editor).backward s.lpos).delete s.lpos =
        { e with kill := e.text.take s.lpos, text := e.text.drop s.lpos, cursor := 0 } := by
      unfold Editor.backward Editor.delete
      simp only [hlpos, Nat.sub_self, List.take_zero, List.nil_append, Nat.zero_add]
    have hall := hback.then hdelete
    rw [hresult] at hall
    rw [hstore]
    exact ⟨hall.shows, hall.call.maxlen, hall.call.echoChar, hall.call.readline⟩

theorem killForward_eq (h : s.pending = false) : s.killForward =
    if s.lpos = s.llen then s
    else ({ s with mem := StringPool.move s.mem killBuf (cmdlineBuf + s.lpos) (s.llen - s.lpos + 1) } : State).clDelete
      (s.llen - s.lpos) := by
  unfold State.killForward
  simp only [moved_clear h]

/-- **C-k**, when what `cl_delete` moves lies in the buffer. -/
theorem Shows.killForward (h : Shows s e) (hmoved : e.cursor < e.text.length → 2 * e.cursor < maxCmdline) :
    Step s s.killForward e.killForward := by
  have hcursor := h.cursor
  have hfits := h.textFits
  have hlpos := h.lpos
  have hllen := h.llen
  rw [killForward_eq h.clear, Editor.killForward, ← hlpos, ← hllen]
  split
  next => exact .refl h
  next hend =>
    have hbehind : Holds 0 s.mem (cmdlineBuf + s.lpos) (e.text.drop s.lpos) := by
      have hdrop := h.parts.drop
      rwa [h.take_length, ← hlpos] at hdrop
    have hlen : (e.text.drop s.lpos).length = e.text.length - s.lpos := List.length_drop
    have hhistory : historyBuf = killBuf + maxCmdline := rfl
    have hkill := h.withKill (m := StringPool.move s.mem killBuf (cmdlineBuf + s.lpos) (s.llen - s.lpos + 1)) (t := e.text.drop s.lpos)
      (fun x hx => hx.elim Memory.store_of_lt fun hx => Memory.store_of_ge (by rw [Memory.slice_length]; omega))
      (hbehind.move (by omega) _) (by omega)
    have hmoved' := hmoved (by omega)
    have hdelete := hkill.delete (n := s.llen - s.lpos) (by show e.cursor + (s.llen - s.lpos) ≤ e.text.length; omega)
      (by show e.cursor + e.text.length < maxCmdline + (s.llen - s.lpos); omega)
    have hresult : ({ e with kill := e.text.drop s.lpos } : Editor).delete (s.llen - s.lpos) =
        { e with kill := e.text.drop s.lpos, text := e.text.take s.lpos } := by
      unfold Editor.delete
      simp only [hlpos, hllen, Nat.add_sub_cancel' hcursor, List.drop_length, List.append_nil]
    rw [hresult, ← hlpos] at hdelete
    exact ⟨hdelete.shows, hdelete.call.maxlen, hdelete.call.echoChar, hdelete.call.readline⟩

/-! ## The history -/

theorem remember_length (e : Editor) (line : List Byte) {no : Nat} (hno : no ≤ e.history.length) :
    (e.remember line no).history.length = min historySize (e.history.length + 1) := by
  unfold Editor.remember
  rw [List.length_take, List.length_append, List.length_take_of_le hno, List.length_cons, List.length_drop]
  congr 1
  omega

/-- The lines of the history, with another one. -/
theorem remember_getElem (e : Editor) (line : List Byte) {no i : Nat} (hno : no ≤ e.history.length) {l : List Byte}
    (h : (e.remember line no).history[i]? = some l) :
    i < historySize ∧ (i < no ∧ e.history[i]? = some l ∨ i = no ∧ l = line ∨ no < i ∧ e.history[i - 1]? = some l) := by
  unfold Editor.remember at h
  dsimp only at h
  obtain ⟨hi, -⟩ := List.getElem?_eq_some_iff.1 h
  rw [List.length_take] at hi
  have hsize : i < historySize := Nat.lt_of_lt_of_le hi (Nat.min_le_left _ _)
  rw [List.getElem?_take_of_lt hsize] at h
  refine ⟨hsize, ?_⟩
  rcases Nat.lt_trichotomy i no with hlt | heq | hgt
  · rw [List.getElem?_append_left (by rw [List.length_take_of_le hno]; exact hlt), List.getElem?_take_of_lt hlt] at h
    exact .inl ⟨hlt, h⟩
  · rw [List.getElem?_append_right (by rw [List.length_take_of_le hno, heq]), List.length_take_of_le hno, heq, Nat.sub_self] at h
    exact .inr (.inl ⟨heq, (Option.some.inj h).symm⟩)
  · rw [List.getElem?_append_right (by rw [List.length_take_of_le hno]; omega), List.length_take_of_le hno] at h
    obtain ⟨k, rfl⟩ : ∃ k, i = no + 1 + k := ⟨i - (no + 1), by omega⟩
    rw [show no + 1 + k - no = k + 1 by omega, List.getElem?_cons_succ, List.getElem?_drop] at h
    refine .inr (.inr ⟨hgt, ?_⟩)
    rwa [show no + 1 + k - 1 = no + k by omega]

section AddHistory
variable {line l : List Byte} {no i : Nat}

theorem addHistory_mem (hclear : s.pending = false) : (s.addHistory line no).mem =
    Memory.store (StringPool.move s.mem (historyBuf + maxCmdline * (no + 1)) (historyBuf + maxCmdline * no)
      (maxCmdline * (s.numHistory - no)))
      (historyBuf + maxCmdline * no) (line ++ [0]) := by
  show s.copied (s.moved _ _ _) _ _ = _
  rw [copied_clear hclear, moved_clear hclear]

theorem addHistory_below (hclear : s.pending = false) {x : Nat} (hx : x < historyBuf) : (s.addHistory line no).mem x = s.mem x := by
  rw [addHistory_mem hclear, Memory.store_of_lt (by omega)]
  exact Memory.store_of_lt (by omega)

theorem addHistory_before (hclear : s.pending = false) (h : Holds 0 s.mem (historyBuf + maxCmdline * i) l) (hl : l.length < maxCmdline)
    (hi : i < no) :
    Holds 0 (s.addHistory line no).mem (historyBuf + maxCmdline * i) l := by
  have hapart : maxCmdline * (i + 1) ≤ maxCmdline * no := Nat.mul_le_mul_left _ hi
  rw [Nat.mul_succ] at hapart
  rw [addHistory_mem hclear]
  refine (h.move_outside (.inr ?_) _).outside (.inr (by omega))
  rw [Nat.mul_succ]
  omega

theorem addHistory_at (hclear : s.pending = false) (hchars : (0 : Byte) ∉ line) :
    Holds 0 (s.addHistory line no).mem (historyBuf + maxCmdline * no) line := by
  rw [addHistory_mem hclear]
  exact StringPool.holds_store _ _ hchars

/-- What is in the way moves on. -/
theorem addHistory_behind (hclear : s.pending = false) (h : Holds 0 s.mem (historyBuf + maxCmdline * i) l) (hl : l.length < maxCmdline)
    (hfits : line.length < maxCmdline) (hno : no ≤ i)
    (hi : i < s.numHistory) : Holds 0 (s.addHistory line no).mem (historyBuf + maxCmdline * (i + 1)) l := by
  obtain ⟨k, rfl⟩ : ∃ k, i = no + k := ⟨i - no, by omega⟩
  rw [Nat.mul_add, ← Nat.add_assoc] at h
  have hin : maxCmdline * k + l.length < maxCmdline * (s.numHistory - no) := by
    have hle : maxCmdline * (k + 1) ≤ maxCmdline * (s.numHistory - no) := Nat.mul_le_mul_left _ (by omega)
    rw [Nat.mul_succ] at hle
    omega
  have hmoved := h.move_block hin (historyBuf + maxCmdline * (no + 1))
  have hplace : historyBuf + maxCmdline * (no + 1) + maxCmdline * k = historyBuf + maxCmdline * (no + k + 1) := by
    rw [Nat.mul_succ, Nat.mul_succ, Nat.mul_add]
    omega
  rw [hplace] at hmoved
  rw [addHistory_mem hclear]
  refine hmoved.outside (.inl ?_)
  rw [List.length_append, List.length_singleton, Nat.mul_succ, Nat.mul_add]
  omega

end AddHistory

/-- **`add_history`.** -/
theorem Buffers.addHistory (h : Buffers s e) (hclear : s.pending = false) {line : List Byte} (hchars : (0 : Byte) ∉ line)
    (hfits : line.length < maxCmdline) {no : Nat}
    (hno : no ≤ e.history.length) (hroom : no < historySize) : Buffers (s.addHistory line no) (e.remember line no) := by
  have hkill := h.killFits
  have hhistory : historyBuf = killBuf + maxCmdline := rfl
  refine ⟨?_, h.killFits, ?_, ?_, fun i l hl => ?_⟩
  · exact h.kill.congr fun x _ hhi => addHistory_below hclear (Nat.lt_of_le_of_lt hhi (by omega))
  · rw [remember_length e line hno]
    show (if s.numHistory < historySize then s.numHistory + 1 else s.numHistory) = _
    have hsize := h.historyFits
    rw [h.numHistory]
    split
    next hlt => exact (Nat.min_eq_right hlt).symm
    next hlt => omega
  · rw [remember_length e line hno]
    exact Nat.min_le_left _ _
  · obtain ⟨hi, hcases⟩ := remember_getElem e line hno hl
    obtain ⟨hlt, hbefore⟩ | ⟨rfl, rfl⟩ | ⟨hgt, hbefore⟩ := hcases
    · obtain ⟨hholds, hlen⟩ := h.lines i l hbefore
      exact ⟨addHistory_before hclear hholds hlen hlt, hlen⟩
    · exact ⟨addHistory_at hclear hchars, hfits⟩
    · obtain ⟨hholds, hlen⟩ := h.lines (i - 1) l hbefore
      obtain ⟨hbound, -⟩ := List.getElem?_eq_some_iff.1 hbefore
      obtain ⟨i, rfl⟩ : ∃ j, i = j + 1 := ⟨i - 1, by omega⟩
      exact ⟨addHistory_behind hclear hholds hlen hfits (Nat.le_of_lt_succ hgt) (h.numHistory ▸ hbound), hlen⟩

/-- A line goes into the history, and the others are as they were. -/
theorem Shows.addHistory (h : Shows s e) {line : List Byte} (hchars : (0 : Byte) ∉ line) (hfits : line.length < maxCmdline) {no : Nat}
    (hno : no ≤ e.history.length) (hroom : no < historySize) (hplace : ∀ i, e.place = some i → i < historySize) :
    Step s (s.addHistory line no) (e.remember line no) := by
  have htext := h.textFits
  have hkill : killBuf = cmdlineBuf + maxCmdline := rfl
  have hhistory : historyBuf = killBuf + maxCmdline := rfl
  refine ⟨⟨h.toBuffers.addHistory h.clear hchars hfits hno hroom, h.clear, ?_, h.textFits, h.llen, h.lpos, h.cursor, h.maxlen, h.history,
    fun i hi => ?_⟩, rfl, rfl, rfl⟩
  · rw [addHistory_mem h.clear]
    exact (h.text.move_outside (.inr (by omega)) _).outside (.inr (by omega))
  · obtain ⟨hlt, hsaved⟩ := h.place i hi
    refine ⟨?_, hsaved⟩
    rw [remember_length e line hno]
    have hsize := hplace i hi
    omega

theorem Shows.place_lt (h : Shows s e) {i : Nat} (hi : e.place = some i) : i < historySize :=
  Nat.lt_of_lt_of_le (h.place i hi).1 h.historyFits

/-- **`get_history`.** -/
theorem Buffers.getHistory (h : Buffers s e) (i : Nat) : s.getHistory i = e.history[i]? := by
  unfold State.getHistory
  rw [h.numHistory]
  split
  next hout =>
    rw [List.getElem?_eq_none]
    omega
  next hin =>
    have hlt : i < e.history.length := by omega
    obtain ⟨hholds, hlen⟩ := h.lines i _ (List.getElem?_eq_getElem hlt)
    rw [List.getElem?_eq_getElem hlt, Int.toNat_natCast, str_eq hholds hlen]

theorem Shows.keepModified (h : Shows s e) {i : Nat} (hi : e.place = some i) : Step s s.keepModified (e.keepModified i) := by
  have hlt := (h.place i hi).1
  have hhistory : s.history = i := by
    rw [h.history, hi]
    rfl
  unfold State.keepModified Editor.keepModified
  rw [hhistory, h.toBuffers.getHistory, h.buf, Int.toNat_natCast]
  by_cases hsame : e.history[i]? = some e.text
  · rw [if_neg (not_not.2 hsame), if_pos hsame]
    exact .refl h
  · rw [if_pos hsame, if_neg hsame]
    exact h.addHistory h.text.chars h.textFits (Nat.le_of_lt hlt) (h.place_lt hi) fun j hj => h.place_lt hj

theorem fetch_eq (hclear : s.pending = false) {history : Int} {line : List Byte} : ({ s with history := history } : State).fetch line =
    ({ s with
      mem := Memory.store s.mem cmdlineBuf (line ++ [0])
      llen := (str (Memory.store s.mem cmdlineBuf (line ++ [0])) cmdlineBuf).length
      lpos := (str (Memory.store s.mem cmdlineBuf (line ++ [0])) cmdlineBuf).length
      history := history } : State).clRefresh true := by
  have hcopied :
      ({ s with history := history } : State).copied s.mem cmdlineBuf (line ++ [0]) = Memory.store s.mem cmdlineBuf (line ++ [0]) :=
    copied_clear (s := { s with history := history }) hclear _ _ _
  unfold State.fetch State.buf
  dsimp only
  rw [hcopied]

/-- A line is fetched. -/
theorem Shows.fetch (h : Shows s e) (place : Option Nat) {history : Int} {line : List Byte} (hchars : (0 : Byte) ∉ line)
    (hfits : line.length < maxCmdline)
    (hhistory : history = place.elim (-1) fun i => (i : Int))
    (hplace : ∀ i, place = some i → i < e.history.length ∧ Holds 0 s.cmdline 0 e.saved ∧ e.saved.length < maxCmdline) :
    Step s (({ s with history := history } : State).fetch line) (e.fetch place line) := by
  have hholds : Holds 0 (Memory.store s.mem cmdlineBuf (line ++ [0])) cmdlineBuf line := StringPool.holds_store _ _ hchars
  have hzero : cmdlineBuf = 0 := rfl
  have hshows := h.withText (n := line.length) (fun x hx => ?_) hholds hfits (Nat.le_refl _)
  · have hbuf : str (Memory.store s.mem cmdlineBuf (line ++ [0])) cmdlineBuf = line := str_eq hholds hfits
    refine ⟨?_, rfl, rfl, rfl⟩
    rw [fetch_eq h.clear, hbuf]
    refine Shows.screen ?_ (clRefresh_screen _ true)
    exact ⟨⟨hshows.kill, hshows.killFits, hshows.numHistory, hshows.historyFits, hshows.lines⟩, h.clear, hshows.text, hshows.textFits,
      hshows.llen,
      hshows.lpos, hshows.cursor, hshows.maxlen, hhistory, hplace⟩
  · refine Memory.store_of_ge ?_
    rw [List.length_append, List.length_singleton]
    omega

theorem remember_place (e : Editor) (i : Nat) : (e.keepModified i).place = e.place ∧ (e.keepModified i).saved = e.saved := by
  unfold Editor.keepModified
  split
  · exact ⟨rfl, rfl⟩
  · exact ⟨rfl, rfl⟩

theorem previous_eq (h : s.pending = false) : s.previous =
    let s₁ := if s.history < 0 then { s with cmdline := Memory.store s.cmdline 0 (s.buf ++ [0]) } else s.keepModified
    (s₁.getHistory (s₁.history + 1)).elim s₁ fun p => ({ s₁ with history := s₁.history + 1 } : State).fetch p := by
  unfold State.previous
  rw [copied_clear h]
  dsimp only
  split
  next hnone => rw [hnone]; rfl
  next hsome => rw [hsome]; rfl

theorem Editor.previous_none (hplace : e.place = none) : e.previous =
    ({ e with saved := e.text } : Editor).history[0]?.elim { e with saved := e.text }
      (({ e with saved := e.text } : Editor).fetch (some 0)) := by
  unfold Editor.previous
  rw [hplace]
  rfl

theorem Editor.previous_some {i : Nat} (hplace : e.place = some i) : e.previous =
    (e.keepModified i).history[i + 1]?.elim (e.keepModified i) ((e.keepModified i).fetch (some (i + 1))) := by
  unfold Editor.previous
  rw [hplace]
  rfl

/-- **C-p** -/
theorem Shows.previous (h : Shows s e) : Step s s.previous e.previous := by
  rw [previous_eq h.clear]
  have hfetch {s₁ : State} {e₁ : Editor} {i : Nat} (hstep : Step s s₁ e₁) (hhistory : s₁.history + 1 = i)
      (hsaved : Holds 0 s₁.cmdline 0 e₁.saved ∧ e₁.saved.length < maxCmdline) :
      Step s ((s₁.getHistory (s₁.history + 1)).elim s₁ fun p => ({ s₁ with history := s₁.history + 1 } : State).fetch p)
        ((e₁.history[i]?).elim e₁ (e₁.fetch (some i))) := by
    rw [hhistory, hstep.shows.toBuffers.getHistory]
    cases hline : e₁.history[i]? with
    | none => exact hstep
    | some line =>
      obtain ⟨hholds, hlen⟩ := hstep.shows.lines i line hline
      obtain ⟨hlt, -⟩ := List.getElem?_eq_some_iff.1 hline
      refine hstep.then (hstep.shows.fetch (some i) hholds.chars hlen rfl fun j hj => ?_)
      obtain rfl := Option.some.inj hj
      exact ⟨hlt, hsaved⟩
  obtain hplace | ⟨i, hplace⟩ := Option.eq_none_or_eq_some e.place
  · have hhistory : s.history = -1 := by
      rw [h.history, hplace]
      rfl
    rw [if_pos (by omega), Editor.previous_none hplace]
    refine hfetch ⟨?_, rfl, rfl, rfl⟩ ?_ ?_
    · exact ⟨⟨h.kill, h.killFits, h.numHistory, h.historyFits, h.lines⟩, h.clear, h.text, h.textFits, h.llen, h.lpos, h.cursor, h.maxlen,
        h.history,
        fun i hi => nomatch hplace.symm.trans hi⟩
    · show s.history + 1 = _
      rw [hhistory]
      rfl
    · show Holds 0 (Memory.store s.cmdline 0 (s.buf ++ [0])) 0 e.text ∧ _
      rw [h.buf]
      exact ⟨StringPool.holds_store _ _ h.text.chars, h.textFits⟩
  · have hhistory : s.history = i := by
      rw [h.history, hplace]
      rfl
    have hstep := h.keepModified hplace
    obtain ⟨hkept, -⟩ := remember_place e i
    rw [if_neg (by omega), Editor.previous_some hplace]
    refine hfetch hstep ?_ (hstep.shows.place i (hkept.trans hplace)).2
    rw [hstep.shows.history, hkept, hplace]
    rfl

/-- **C-n** -/
theorem Shows.next (h : Shows s e) : Step s s.next e.next := by
  unfold State.next Editor.next
  cases hplace : e.place with
  | none =>
    have hhistory : s.history = -1 := by
      rw [h.history, hplace]
      rfl
    rw [if_pos (by omega)]
    exact .refl h
  | some i =>
    have hhistory : s.history = i := by
      rw [h.history, hplace]
      rfl
    have hstep := h.keepModified hplace
    obtain ⟨hkept, hsaved⟩ := remember_place e i
    obtain ⟨hlt, hholds, hlen⟩ := hstep.shows.place i (hkept.trans hplace)
    have hbefore : s.keepModified.history = i := by
      rw [hstep.shows.history, hkept, hplace]
      rfl
    rw [if_neg (by omega)]
    dsimp only
    rw [hbefore]
    cases i with
    | zero =>
      have hnone : ({ s.keepModified with history := ((0 : Nat) : Int) - 1 } : State).getHistory (((0 : Nat) : Int) - 1) = none :=
        if_pos (.inl (by decide))
      rw [hnone]
      show Step s (({ s.keepModified with history := ((0 : Nat) : Int) - 1 } : State).fetch (str s.keepModified.cmdline 0)) _
      rw [str_eq hholds hlen, hsaved]
      rw [hsaved] at hholds hlen
      exact hstep.then (hstep.shows.fetch none hholds.chars hlen rfl fun j hj => nomatch hj)
    | succ i =>
      have hpred : ((i + 1 : Nat) : Int) - 1 = i := by omega
      have hbelow : i < (e.keepModified (i + 1)).history.length := Nat.lt_of_succ_lt hlt
      rw [hpred]
      have hget : ({ s.keepModified with history := (i : Int) } : State).getHistory i = (e.keepModified (i + 1)).history[i]? :=
        hstep.shows.toBuffers.getHistory i
      rw [hget, List.getElem?_eq_getElem hbelow]
      obtain ⟨hline, hfits⟩ := hstep.shows.lines i _ (List.getElem?_eq_getElem hbelow)
      have hgetD : (e.keepModified (i + 1)).history.getD i [] = (e.keepModified (i + 1)).history[i] := by
        rw [List.getD_eq_getElem?_getD, List.getElem?_eq_getElem hbelow, Option.getD_some]
      show Step s _ ((e.keepModified (i + 1)).fetch (some i) ((e.keepModified (i + 1)).history.getD i []))
      rw [hgetD]
      refine hstep.then (hstep.shows.fetch (some i) hline.chars hfits rfl fun j hj => ?_)
      obtain rfl := Option.some.inj hj
      exact ⟨hbelow, hholds, hlen⟩

/-! ## Completion -/

/-- What there is to complete words with: strings that begin with the word. -/
structure Completing (c : Completions) : Prop where
  chars : ∀ isFilename w, (0 : Byte) ∉ (c isFilename w).buffer
  fits : ∀ isFilename w, (c isFilename w).buffer.length < addressSpace
  word : ∀ isFilename w, 0 ≤ (c isFilename w).ret → w <+: (c isFilename w).buffer

/-- Something is put in before the equal character after the command. -/
def Overtakes (e : Editor) (max : Int) (completions : Completions) : Prop :=
  (∃ i, equalPos e.text (commandEnd e.text) = some i ∧ e.cursor ≤ i) ∧ 0 ≤ (e.completion completions).ret ∧
    (e.completion completions).buffer ≠ e.word ∧ (e.text.length - e.word.length + (e.completion completions).buffer.length : Int) < max

theorem equalPos_spec {buf : List Byte} {pos i : Nat} (h : equalPos buf pos = some i) : buf[i]? = some 0x3D := by
  unfold equalPos at h
  obtain ⟨k, hk, rfl⟩ := Option.map_eq_some_iff.1 h
  obtain ⟨hlt, hc, -⟩ := List.findIdx?_eq_some_iff_getElem.1 hk
  have hleading := List.takeWhile_prefix (fun c : Byte => decide (c ≠ 0x20)) (l := buf.drop pos)
  rw [hleading.getElem hlt] at hc
  rw [← List.getElem?_drop, List.getElem?_eq_getElem (Nat.lt_of_lt_of_le hlt hleading.length_le), of_decide_eq_true hc]

/-- The text, with a space for the equal character after the command. -/
def blankedText (text : List Byte) : List Byte := (equalPos text (commandEnd text)).elim text fun i => text.set i 0x20

theorem blankedText_length (text : List Byte) : (blankedText text).length = text.length := by
  unfold blankedText
  cases equalPos text (commandEnd text) with
  | none => rfl
  | some i => exact List.length_set

/-- Words are behind spaces of the text that has been changed. -/
theorem blankedText_space {text : List Byte} {i : Nat} (hi : i < text.length) :
    (blankedText text)[i]? = some 0x20 ↔ text[i]? = some 0x20 ∨ equalPos text (commandEnd text) = some i := by
  unfold blankedText
  cases hequal : equalPos text (commandEnd text) with
  | none => exact ⟨.inl, fun h => h.resolve_right fun hsome => nomatch hsome⟩
  | some j =>
    show (text.set j 0x20)[i]? = _ ↔ _
    by_cases hij : j = i
    · rw [hij, List.getElem?_set_self hi]
      exact ⟨fun _ => .inr rfl, fun _ => rfl⟩
    · rw [List.getElem?_set_ne hij]
      exact ⟨.inl, fun h => h.resolve_right fun hsome => hij (Option.some.inj hsome)⟩

theorem wordStart_le (text : List Byte) (n : Nat) : Editor.wordStart text n ≤ n := by
  induction n with
  | zero => exact Nat.le_refl _
  | succ n ih =>
    rw [Editor.wordStart]
    split
    · exact Nat.le_refl _
    · exact Nat.le_succ_of_le ih

/-- No space is in the word. -/
theorem wordStart_free (text : List Byte) (n j : Nat) (hlo : Editor.wordStart text n ≤ j) (hhi : j < n) :
    equalPos text (commandEnd text) ≠ some j := by
  induction n with
  | zero => exact absurd hhi (Nat.not_lt_zero j)
  | succ n ih =>
    rw [Editor.wordStart] at hlo
    split at hlo
    · exact absurd hhi (Nat.not_lt.2 hlo)
    next hbreak =>
      obtain hjn | hjn := Nat.lt_succ_iff_lt_or_eq.1 hhi
      · exact ih hlo hjn
      · rw [hjn]
        exact fun hsome => hbreak (.inr hsome)

theorem wordStart_eq {m : Nat → Byte} {text : List Byte} (h : Holds 0 m cmdlineBuf (blankedText text)) {n : Nat} (hn : n ≤ text.length) :
    wordStart m n = Editor.wordStart text n := by
  induction n with
  | zero => rfl
  | succ n ih =>
    have hlt : n < (blankedText text).length := by
      rw [blankedText_length]
      exact hn
    have hspace : m (cmdlineBuf + n) = 0x20 ↔ text[n]? = some 0x20 ∨ equalPos text (commandEnd text) = some n := by
      rw [← blankedText_space hn, List.getElem?_eq_getElem hlt, h.getElem hlt]
      exact ⟨congrArg some, Option.some.inj⟩
    rw [wordStart, Editor.wordStart, ih (Nat.le_of_succ_le hn)]
    by_cases hbreak : m (cmdlineBuf + n) = 0x20
    · rw [if_pos hbreak, if_pos (hspace.1 hbreak)]
    · rw [if_neg hbreak, if_neg fun hin => hbreak (hspace.2 hin)]

/-- The word is in the text that has been changed, too. -/
theorem blankedText_word (text : List Byte) (n : Nat) :
    ((blankedText text).take n).drop (Editor.wordStart text n) = (text.take n).drop (Editor.wordStart text n) := by
  unfold blankedText
  cases hequal : equalPos text (commandEnd text) with
  | none => rfl
  | some i =>
    refine List.ext_getElem? fun j => ?_
    show (((text.set i 0x20).take n).drop _)[j]? = _
    rw [List.getElem?_drop, List.getElem?_drop, List.getElem?_take, List.getElem?_take]
    split
    next hlt =>
      refine List.getElem?_set_ne fun hij => ?_
      exact wordStart_free text n i (hij ▸ Nat.le_add_right _ _) (hij ▸ hlt) hequal
    next => rfl

theorem word_length (h : e.cursor ≤ e.text.length) : e.word.length = e.cursor - Editor.wordStart e.text e.cursor := by
  rw [Editor.word, List.length_drop, List.length_take_of_le h]

/-- The word is put in as far as it is not there. -/
theorem complete_insert (h : e.cursor ≤ e.text.length) {max : Int} {completions : Completions} (hret : 0 ≤ (e.completion completions).ret)
    {t : List Byte}
    (ht : (e.completion completions).buffer = e.word ++ t) : e.complete max completions = e.insert max t := by
  have hstart := wordStart_le e.text e.cursor
  have hword := word_length h
  have hlen : (e.completion completions).buffer.length = e.word.length + t.length := by rw [ht, List.length_append]
  have htake : e.text.take e.cursor = e.text.take (Editor.wordStart e.text e.cursor) ++ e.word := by
    have hleading : e.text.take (Editor.wordStart e.text e.cursor) = (e.text.take e.cursor).take (Editor.wordStart e.text e.cursor) := by
      rw [List.take_take, Nat.min_eq_left hstart]
    rw [hleading, Editor.word, List.take_append_drop]
  unfold Editor.complete Editor.insert
  dsimp only
  have hroom :
      (e.text.length - e.word.length + (e.completion completions).buffer.length : Int) < max ↔ (e.text.length + t.length : Int) < max := by
    rw [hlen]
    omega
  by_cases hfits : (e.text.length + t.length : Int) < max
  · rw [if_pos ⟨hret, hroom.2 hfits⟩, if_pos hfits, htake, ht, List.append_assoc, List.append_assoc, ← ht, hlen]
    congr 1
    omega
  · rw [if_neg fun hin => hfits (hroom.1 hin.2), if_neg hfits]

theorem insert_nil (e : Editor) (max : Int) : e.insert max [] = e := by
  unfold Editor.insert
  split
  · rw [List.nil_append, List.take_append_drop]
    rfl
  · rfl

/-- A text of the same length. -/
theorem Shows.withMem (h : Shows s e) {m : Nat → Byte} {t : List Byte} (hmem : ∀ x, maxCmdline ≤ x → m x = s.mem x)
    (ht : Holds 0 m cmdlineBuf t)
    (hlen : t.length = e.text.length) : Shows { s with mem := m } { e with text := t } := by
  have hcursor := h.cursor
  have hfits := h.textFits
  have hshows := h.withText (n := e.cursor) hmem ht (by omega) (by omega)
  exact ⟨⟨hshows.kill, hshows.killFits, hshows.numHistory, hshows.historyFits, hshows.lines⟩, h.clear, ht, hshows.textFits,
    h.llen.trans hlen.symm, h.lpos,
    hshows.cursor, h.maxlen, h.history, h.place⟩

/-- Only what is behind the history changes. -/
theorem Shows.scratch (h : Shows s e) {m : Nat → Byte} (hmem : ∀ x, x < completionBuf → m x = s.mem x) : Shows { s with mem := m } e := by
  have hkill := h.killFits
  have hfits := h.textFits
  have hbufs : cmdlineBuf = 0 ∧ killBuf = 1600 ∧ historyBuf = 3200 ∧ completionBuf = 11200 ∧ maxCmdline = 1600 ∧ historySize = 5 := by
    decide
  refine ⟨⟨h.kill.congr fun x _ hhi => hmem x (by omega), h.killFits, h.numHistory, h.historyFits, fun i line hline => ?_⟩,
    h.clear, h.text.congr fun x _ hhi => hmem x (by omega), h.textFits, h.llen, h.lpos, h.cursor, h.maxlen, h.history, h.place⟩
  obtain ⟨hholds, hlen⟩ := h.lines i line hline
  obtain ⟨hlt, -⟩ := List.getElem?_eq_some_iff.1 hline
  have hsize := h.historyFits
  have hslot : maxCmdline * i ≤ maxCmdline * 4 := Nat.mul_le_mul_left _ (by omega)
  exact ⟨hholds.congr fun x _ hhi => hmem x (by omega), hlen⟩

theorem Shows.setText (h : Shows s e) {i : Nat} (hi : i < e.text.length) {c : Byte} (hc : c ≠ 0) :
    Shows { s with mem := Memory.store s.mem (cmdlineBuf + i) [c] } { e with text := e.text.set i c } := by
  have hfits := h.textFits
  have hzero : cmdlineBuf = 0 := rfl
  refine h.withMem (fun x hx => Memory.store_of_ge ?_) (h.text.set hi hc) List.length_set
  rw [List.length_singleton]
  omega

/-- The equal character is put back behind what has been inserted. -/
theorem restore_insert {i : Nat} (hequal : equalPos e.text (commandEnd e.text) = some i) (hcursor : e.cursor ≤ e.text.length)
    (hi : i < e.cursor)
    (max : Int) (t : List Byte) :
    ({ ({ e with text := blankedText e.text } : Editor).insert max t with
        text := (({ e with text := blankedText e.text } : Editor).insert max t).text.set i 0x3D } : Editor) = e.insert max t := by
  have hblanked : blankedText e.text = e.text.set i 0x20 := by
    unfold blankedText
    rw [hequal]
    rfl
  have hc : e.text[i] = 0x3D := by
    have hspec := equalPos_spec hequal
    rw [List.getElem?_eq_getElem (Nat.lt_of_lt_of_le hi hcursor)] at hspec
    exact Option.some.inj hspec
  have hback : (e.text.set i 0x20).set i 0x3D = e.text := by
    rw [List.set_set, ← hc, List.set_getElem_self]
  unfold Editor.insert
  rw [hblanked, List.length_set]
  split
  · dsimp only
    have htake : ((e.text.set i 0x20).take e.cursor).set i 0x3D = e.text.take e.cursor := by
      rw [← List.take_set, hback]
    rw [List.set_append_left _ _ (by rw [List.length_take, List.length_set]; omega), htake, List.drop_set_of_lt hi]
  · dsimp only
    rw [hback]

theorem restore_blanked {i : Nat} (hequal : equalPos e.text (commandEnd e.text) = some i) : (blankedText e.text).set i 0x3D = e.text := by
  obtain ⟨hi, hc⟩ := List.getElem?_eq_some_iff.1 (equalPos_spec hequal)
  unfold blankedText
  rw [hequal]
  show (e.text.set i 0x20).set i 0x3D = e.text
  rw [List.set_set, ← hc, List.set_getElem_self]

/-- The text has a space for the equal character after the command. -/
theorem Shows.blanked (h : Shows s e) :
    Shows (s.putEqual (equalPos e.text (commandEnd e.text)) 0x20) { e with text := blankedText e.text } := by
  unfold blankedText State.putEqual
  cases hequal : equalPos e.text (commandEnd e.text) with
  | none => exact h
  | some i =>
    obtain ⟨hi, -⟩ := List.getElem?_eq_some_iff.1 (equalPos_spec hequal)
    exact h.setText hi (by decide)

/-- The word is copied. -/
theorem Shows.copyWord (h : Shows s { e with text := blankedText e.text }) :
    Shows (s.copyWord (Editor.wordStart e.text e.cursor)) { e with text := blankedText e.text } ∧
      Holds 0 (s.copyWord (Editor.wordStart e.text e.cursor)).mem completionBuf e.word := by
  have hcursor : e.cursor ≤ e.text.length := by
    have hblanked := h.cursor
    rwa [blankedText_length] at hblanked
  have hstart := wordStart_le e.text e.cursor
  have hlen := word_length hcursor
  have hlpos : s.lpos = e.cursor := h.lpos
  have htake : ((blankedText e.text).take (Editor.wordStart e.text e.cursor)).length = Editor.wordStart e.text e.cursor := by
    rw [List.length_take_of_le]
    rw [blankedText_length]
    omega
  have hparts : blankedText e.text = (blankedText e.text).take (Editor.wordStart e.text e.cursor) ++
    (e.word ++ (blankedText e.text).drop e.cursor) := by
    have hleading : (blankedText e.text).take (Editor.wordStart e.text e.cursor) =
        ((blankedText e.text).take e.cursor).take (Editor.wordStart e.text e.cursor) := by
      rw [List.take_take, Nat.min_eq_left hstart]
    rw [Editor.word, ← blankedText_word, hleading, ← List.append_assoc, List.take_append_drop, List.take_append_drop]
  have hholds := h.text
  dsimp only at hholds
  rw [hparts] at hholds
  have hcells : slice s.mem (cmdlineBuf + Editor.wordStart e.text e.cursor) (e.cursor - Editor.wordStart e.text e.cursor) = e.word := by
    have hleft := hholds.drop.slice_left
    rwa [htake, hlen] at hleft
  have hchars : (0 : Byte) ∉ e.word := fun hin => hholds.chars (List.mem_append_right _ (List.mem_append_left _ hin))
  have hcopy : s.copyWord (Editor.wordStart e.text e.cursor) = { s with mem := Memory.store s.mem completionBuf (e.word ++ [0]) } := by
    unfold State.copyWord
    rw [moved_clear h.clear, hlpos, StringPool.move, hcells, Memory.store_append, hlen]
  rw [hcopy]
  exact ⟨h.scratch fun x hx => Memory.store_of_lt hx, StringPool.holds_store _ _ hchars⟩

theorem completion_eq (e : Editor) (completions : Completions) :
    completions (decide (commandEnd e.text < e.cursor)) e.word = e.completion completions := rfl

/-- What is not put in, or not before the equal character. -/
theorem insert_blanked {i : Nat} (_ : equalPos e.text (commandEnd e.text) = some i) {max : Int} {t : List Byte}
    (h : t = [] ∨ ¬ (e.text.length + t.length : Int) < max) :
    e.insert max t = e ∧ ({ e with text := blankedText e.text } : Editor).insert max t = { e with text := blankedText e.text } := by
  obtain rfl | hfull := h
  · exact ⟨insert_nil e max, insert_nil _ max⟩
  · refine ⟨if_neg hfull, if_neg ?_⟩
    rw [blankedText_length]
    exact hfull

/-- What is behind the word is put in. -/
theorem Shows.putCompletion {i : Nat} (h : Shows s e) {c : Completion} (hchars : (0 : Byte) ∉ c.buffer)
    (hfits : c.buffer.length < addressSpace) {w t : List Byte}
    (hbuffer : 0 ≤ c.ret → c.buffer = w ++ t) (hw : w.length = s.lpos - i) :
    Step s (s.putCompletion i c) (if 0 ≤ c.ret then e.insert s.maxlen t else e) := by
  have hscratch : Shows { s with mem := Memory.store s.mem completionBuf (c.buffer ++ [0]) } e :=
    h.scratch fun x hx => Memory.store_of_lt hx
  unfold State.putCompletion
  dsimp only
  by_cases hret : 0 ≤ c.ret
  · have hholds : Holds 0 (Memory.store s.mem completionBuf (c.buffer ++ [0])) completionBuf (w ++ t) := by
      rw [← hbuffer hret]
      exact StringPool.holds_store _ _ hchars
    have hlen : t.length < addressSpace := by
      rw [hbuffer hret, List.length_append] at hfits
      omega
    have hread : str (Memory.store s.mem completionBuf (c.buffer ++ [0])) (completionBuf + (s.lpos - i)) = t := by
      rw [← hw]
      exact hholds.drop.read hlen
    rw [if_pos hret, if_pos hret, hread]
    have hinsert := hscratch.insert hholds.drop.chars
    exact ⟨hinsert.shows, hinsert.call.maxlen, hinsert.call.echoChar, hinsert.call.readline⟩
  · rw [if_neg hret, if_neg hret]
    exact ⟨hscratch, rfl, rfl, rfl⟩

/-- The equal character is put back. -/
theorem Shows.putEqual_back (h : Shows s e) {i : Nat} (hi : i < e.text.length) :
    Shows (s.putEqual (some i) 0x3D) { e with text := e.text.set i 0x3D } :=
  h.setText hi (by decide)

theorem complete_eq (h : s.pending = false) (completions : Completions) : s.complete completions =
    let equal := equalPos s.buf (commandEnd s.buf)
    let s₁ := s.putEqual equal 0x20
    let i := wordStart s₁.mem s₁.lpos
    let c := completions (decide (commandEnd s.buf < s.lpos)) (str (s₁.copyWord i).mem completionBuf)
    let s₂ := ((s₁.copyWord i).putCompletion i c).putEqual equal 0x3D
    if c.ret ≠ 0 then s₂.clInit else s₂ := by
  have hsame (equal : Option Nat) (i : Nat) :
      ({ (s.putEqual equal 0x20).copyWord i with pending := false } : State) = (s.putEqual equal 0x20).copyWord i := by
    rw [← h]
    rfl
  unfold State.complete
  dsimp only
  rw [hsame]

/-- **TAB**, when nothing is put in before the equal character after the command. -/
theorem Shows.complete (h : Shows s e) {completions : Completions} (hcompletions : Completing completions)
    (hover : ¬ Overtakes e s.maxlen completions) :
    Step s (s.complete completions) (e.complete s.maxlen completions) := by
  have hcursor := h.cursor
  have hlpos := h.lpos
  have hblanked := h.blanked
  have hword : e.word.length < maxCmdline := by
    have hfits := h.textFits
    rw [word_length hcursor]
    omega
  rw [complete_eq h.clear, h.buf]
  dsimp only
  generalize hs₁ : s.putEqual (equalPos e.text (commandEnd e.text)) 0x20 = s₁ at *
  have hsame : s₁.lpos = e.cursor ∧ SameCall s s₁ := by
    rw [← hs₁]
    exact ⟨hlpos, rfl, rfl, rfl⟩
  obtain ⟨hshows, hasked⟩ := hblanked.copyWord
  rw [hsame.1, wordStart_eq hblanked.text hcursor, str_eq hasked hword, hlpos, completion_eq e completions]
  have hchars := hcompletions.chars (decide (commandEnd e.text < e.cursor)) e.word
  have hfits := hcompletions.fits (decide (commandEnd e.text < e.cursor)) e.word
  have hleading := hcompletions.word (decide (commandEnd e.text < e.cursor)) e.word
  rw [completion_eq e completions] at hchars hfits hleading
  obtain ⟨t, ht⟩ : ∃ t, 0 ≤ (e.completion completions).ret → (e.completion completions).buffer = e.word ++ t := by
    by_cases hret : 0 ≤ (e.completion completions).ret
    · obtain ⟨t, ht⟩ := hleading hret
      exact ⟨t, fun _ => ht.symm⟩
    · exact ⟨[], fun hin => absurd hin hret⟩
  have hput := hshows.putCompletion (i := Editor.wordStart e.text e.cursor) hchars hfits ht (by
    show e.word.length = s₁.lpos - _
    rw [hsame.1, word_length hcursor])
  have hmaxlen : (s₁.copyWord (Editor.wordStart e.text e.cursor)).maxlen = s.maxlen := hsame.2.maxlen
  rw [hmaxlen] at hput
  generalize hs₂ :
      (s₁.copyWord (Editor.wordStart e.text e.cursor)).putCompletion (Editor.wordStart e.text e.cursor) (e.completion completions) = s₂ at *
  have hcall : SameCall s s₂ := hsame.2.trans ⟨hput.call.maxlen, hput.call.echoChar, hput.call.readline⟩
  suffices hback : Shows (s₂.putEqual (equalPos e.text (commandEnd e.text)) 0x3D) (e.complete s.maxlen completions) by
    split
    · exact ⟨hback.screen (clRefresh_screen _ true), hcall.maxlen, hcall.echoChar, hcall.readline⟩
    · exact ⟨hback, hcall.maxlen, hcall.echoChar, hcall.readline⟩
  have hput := hput.shows
  by_cases hret : 0 ≤ (e.completion completions).ret
  · rw [if_pos hret] at hput
    rw [complete_insert hcursor hret (ht hret)]
    cases hequal : equalPos e.text (commandEnd e.text) with
    | none =>
      have hsame : blankedText e.text = e.text := by
        unfold blankedText
        rw [hequal]
        rfl
      rw [hsame] at hput
      exact hput
    | some i =>
      obtain ⟨hi, -⟩ := List.getElem?_eq_some_iff.1 (equalPos_spec hequal)
      by_cases hic : i < e.cursor
      · rw [← restore_insert hequal hcursor hic]
        refine hput.putEqual_back ?_
        have hinside := hput.cursor
        have hmoved : i < (({ e with text := blankedText e.text } : Editor).insert s.maxlen t).cursor := by
          unfold Editor.insert
          split
          · exact Nat.lt_of_lt_of_le hic (Nat.le_add_right _ _)
          · exact hic
        omega
      · -- Nothing is put in before the equal character.
        have hnothing : t = [] ∨ ¬ (e.text.length + t.length : Int) < s.maxlen := by
          by_cases htnil : t = []
          · exact .inl htnil
          · refine .inr fun hroom => hover ⟨⟨i, hequal, Nat.not_lt.1 hic⟩, hret, fun hsame => htnil ?_, ?_⟩
            · rw [ht hret] at hsame
              exact List.append_right_eq_self.1 hsame
            · rw [ht hret, List.length_append]
              push_cast
              omega
        obtain ⟨hnone, hblank⟩ := insert_blanked hequal hnothing
        rw [hblank] at hput
        rw [hnone]
        have hrestored := hput.putEqual_back (i := i) (by rw [blankedText_length]; exact hi)
        rw [restore_blanked hequal] at hrestored
        exact hrestored
  · rw [if_neg hret] at hput
    have hnone : e.complete s.maxlen completions = e := if_neg fun hin => hret hin.1
    rw [hnone]
    cases hequal : equalPos e.text (commandEnd e.text) with
    | none =>
      have hsame : blankedText e.text = e.text := by
        unfold blankedText
        rw [hequal]
        rfl
      rw [hsame] at hput
      exact hput
    | some i =>
      obtain ⟨hi, -⟩ := List.getElem?_eq_some_iff.1 (equalPos_spec hequal)
      have hrestored := hput.putEqual_back (i := i) (by rw [blankedText_length]; exact hi)
      rw [restore_blanked hequal] at hrestored
      exact hrestored

end TrustedGrub.Line
