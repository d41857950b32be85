import TrustedGrub.Line.Display

/-!
# The screen behind each key

Every key leaves the screen that shows the line, also where it moves the cursor into the margin of a section, which is
then kept. TAB draws while the equal character behind the command is a space.
-/

namespace TrustedGrub.Line
open Fips180 (Byte)
open StringPool (Holds)

variable {prompt : List Byte} {dumb : Bool} {s s' : State} {t t' : Screen} {l u line : List Byte} {c : Byte} {n len count : Nat}

/-! ## Memory that is not shown -/

/-- Only what is not shown is different. -/
structure SameLine (s s' : State) : Prop where
  pending : s'.pending = s.pending
  maxlen : s'.maxlen = s.maxlen
  sectionNo : s'.sectionNo = s.sectionNo
  plen : s'.plen = s.plen
  xpos : s'.xpos = s.xpos
  lpos : s'.lpos = s.lpos
  llen : s'.llen = s.llen
  echoChar : s'.echoChar = s.echoChar
  mem : ∀ i < s.llen, s'.mem (cmdlineBuf + i) = s.mem (cmdlineBuf + i)

theorem Coherent.same (h : Coherent prompt s t) (hsame : SameLine s s') (hprinted : Printed s') : Coherent prompt s' t := by
  have hfirst : s'.first = s.first := by rw [State.first, hsame.sectionNo, hsame.plen]; rfl
  have hwindow : s'.windowStart = s.windowStart := by rw [State.windowStart, hsame.sectionNo, hsame.plen]; rfl
  have hleft := h.left
  refine ⟨⟨hsame.plen.trans h.plen, h.short, h.printing⟩, hprinted,
    ⟨hsame.pending.trans h.clear, hsame.llen.le.trans h.fits, hsame.maxlen.le.trans h.maxlen⟩,
    ⟨fun col hcol => ?_, h.x.trans hsame.xpos.symm, ?_, ?_, hsame.xpos ▸ h.right, h.reads⟩, ?_⟩
  · rw [h.row col hcol, cellAt_congr hsame.sectionNo hsame.plen hsame.echoChar hsame.llen hsame.mem h.toPrompted.windowStart]
  · rw [hsame.xpos, hfirst, hsame.lpos, hwindow]
    exact h.xpos
  · rw [hfirst, hsame.xpos]
    exact hleft
  · rw [hsame.lpos, hsame.llen]
    exact h.lpos

/-- Memory behind the line changes. -/
theorem Coherent.memory (h : Coherent prompt s t) {m : Nat → Byte} (hsame : ∀ i < s.llen, m (cmdlineBuf + i) = s.mem (cmdlineBuf + i))
    (hm : ∀ i < completionBuf, Printing (m i)) : Coherent prompt { s with mem := m } t :=
  h.same ⟨rfl, rfl, rfl, rfl, rfl, rfl, rfl, rfl, hsame⟩ ⟨hm, h.saved, h.echoChar⟩

/-- **C-u** -/
theorem Coherent.killBackward (h : Coherent prompt s t) : Coherent prompt s.killBackward (t.killBackward prompt dumb s) := by
  have hlpos := h.lpos
  have hfits := h.fits
  have hkill : killBuf = cmdlineBuf + maxCmdline := rfl
  have hcompletion := completionBuf_eq
  rw [killBackward_eq h.clear]
  unfold Screen.killBackward
  simp only [moved_clear h.clear]
  split
  next => exact h
  next =>
    have hkilled :
        Coherent prompt { s with mem := Memory.store (StringPool.move s.mem killBuf cmdlineBuf s.lpos) (killBuf + s.lpos) [0] } t := by
      apply h.memory
      · intro i hi
        rw [Memory.store_of_lt (by omega)]
        exact Memory.store_of_lt (by omega)
      · exact store_printing (move_printing h.mem _ (by omega)) (fun c hc => List.mem_singleton.1 hc ▸ zero_printing) _
    have hscreen :=
      clBackward_screen ({ s with mem := Memory.store (StringPool.move s.mem killBuf cmdlineBuf s.lpos) (killBuf + s.lpos) [0] } : State)
        s.lpos
    apply (hkilled.backward (Nat.le_refl s.lpos)).delete
    rw [hscreen.lpos, hscreen.llen]
    show s.lpos - s.lpos + s.lpos ≤ s.llen
    omega

/-- **C-k** -/
theorem Coherent.killForward (h : Coherent prompt s t) : Coherent prompt s.killForward (t.killForward prompt dumb s) := by
  have hlpos := h.lpos
  have hfits := h.fits
  have hkill : killBuf = cmdlineBuf + maxCmdline := rfl
  have hcompletion := completionBuf_eq
  have hmax : maxCmdline = 1600 := rfl
  rw [killForward_eq h.clear]
  unfold Screen.killForward
  simp only [moved_clear h.clear]
  split
  next => exact h
  next =>
    have hkilled : Coherent prompt { s with mem := StringPool.move s.mem killBuf (cmdlineBuf + s.lpos) (s.llen - s.lpos + 1) } t := by
      apply h.memory
      · intro i hi
        exact Memory.store_of_lt (by omega)
      · exact move_printing h.mem _ (by omega)
    apply hkilled.delete
    show s.lpos + (s.llen - s.lpos) ≤ s.llen
    omega

/-! ## The lines of the history -/

/-- The buffers hold lines that fit into them. -/
structure Held (s : State) : Prop where
  line : ∃ l, Lies s l
  numHistory : s.numHistory ≤ historySize
  lines : ∀ i < s.numHistory, ∃ l, Holds 0 s.mem (historyBuf + maxCmdline * i) l ∧ l.length < maxCmdline
  place : -1 ≤ s.history ∧ s.history < s.numHistory
  saved : 0 ≤ s.history → ∃ l, Holds 0 s.cmdline 0 l ∧ l.length < maxCmdline

theorem Held.clear (h : Held s) : s.pending = false := h.line.elim fun _ hl => hl.clear

theorem Held.llen (h : Held s) : s.llen < maxCmdline := by
  obtain ⟨l, hl⟩ := h.line
  rw [hl.llen]
  exact hl.fits

theorem Held.edited (h : Held s) (hline : ∃ l, Lies s' l) (hedits : Edits s s') : Held s' where
  line := hline
  numHistory := hedits.numHistory.le.trans h.numHistory
  lines i hi := by
    rw [hedits.numHistory] at hi
    obtain ⟨l, hholds, hfits⟩ := h.lines i hi
    have hnum := h.numHistory
    have hslot : maxCmdline * (i + 1) ≤ maxCmdline * historySize := Nat.mul_le_mul_left _ (by omega)
    have hcompletion : completionBuf = historyBuf + maxCmdline * historySize := rfl
    rw [Nat.mul_succ] at hslot
    exact ⟨l, hholds.congr fun x hlo hhi => hedits.mem x (by omega) (by omega), hfits⟩
  place := by
    rw [hedits.history, hedits.numHistory]
    exact h.place
  saved := by
    rw [hedits.history, hedits.cmdline]
    exact h.saved

theorem Held.getHistory (h : Held s) {no : Int} (hl : s.getHistory no = some l) :
    ((0 : Byte) ∉ l ∧ l.length < maxCmdline) ∧ 0 ≤ no ∧ no < s.numHistory := by
  unfold State.getHistory at hl
  split at hl
  next => cases hl
  next hin =>
    obtain ⟨l', hholds, hfits⟩ := h.lines no.toNat (by omega)
    rw [str_eq hholds hfits] at hl
    obtain rfl := Option.some.inj hl
    exact ⟨⟨hholds.chars, hfits⟩, by omega, by omega⟩

/-- **`add_history`** -/
theorem Held.addHistory (h : Held s) (hchars : (0 : Byte) ∉ line) (hfits : line.length < maxCmdline) {no : Nat} (hno : no ≤ s.numHistory) :
    Held (s.addHistory line no) where
  line := by
    obtain ⟨l, hl⟩ := h.line
    have hlen := hl.fits
    have hhistory := historyBuf_eq
    exact ⟨l, hl.clear, hl.text.congr fun x _ hhi => addHistory_below hl.clear (by omega), hl.fits, hl.llen, hl.lpos, hl.maxlen⟩
  numHistory := by
    have hnum := h.numHistory
    show (if s.numHistory < historySize then s.numHistory + 1 else s.numHistory) ≤ historySize
    split <;> omega
  lines i hi := by
    have hnum : (if s.numHistory < historySize then s.numHistory + 1 else s.numHistory) ≤ s.numHistory + 1 := by
      split <;> omega
    have hi' : i < s.numHistory + 1 := Nat.lt_of_lt_of_le hi hnum
    obtain hlt | rfl | hgt := Nat.lt_trichotomy i no
    · obtain ⟨l, hholds, hl⟩ := h.lines i (Nat.lt_of_lt_of_le hlt hno)
      exact ⟨l, addHistory_before h.clear hholds hl hlt, hl⟩
    · exact ⟨line, addHistory_at h.clear hchars, hfits⟩
    · obtain ⟨i, rfl⟩ : ∃ j, i = j + 1 := ⟨i - 1, by omega⟩
      obtain ⟨l, hholds, hl⟩ := h.lines i (Nat.lt_of_succ_lt_succ hi')
      exact ⟨l, addHistory_behind h.clear hholds hl hfits (Nat.le_of_lt_succ hgt) (Nat.lt_of_succ_lt_succ hi'), hl⟩
  place := by
    have hplace := h.place
    show -1 ≤ s.history ∧ s.history < ((if s.numHistory < historySize then s.numHistory + 1 else s.numHistory : Nat) : Int)
    split <;> omega
  saved := h.saved

/-- The screen shows the line, and the buffers are in order. -/
structure Fine (prompt : List Byte) (s : State) (t : Screen) : Prop where
  coherent : Coherent prompt s t
  held : Held s

theorem Fine.keepModified (h : Fine prompt s t) (hplace : 0 ≤ s.history) :
    Fine prompt s.keepModified t ∧ s.keepModified.history = s.history ∧ s.keepModified.cmdline = s.cmdline := by
  have hhi := h.held.place.2
  have hllen := h.held.llen
  have hhistory := historyBuf_eq
  have hcompletion : completionBuf = historyBuf + maxCmdline * historySize := rfl
  have hsize : maxCmdline = 1600 ∧ historySize = 5 := ⟨rfl, rfl⟩
  obtain ⟨hmax, hsize⟩ := hsize
  rw [hmax, hsize] at hcompletion
  obtain ⟨l, hl⟩ := h.held.line
  unfold State.keepModified
  split
  next =>
    refine ⟨⟨?_, h.held.addHistory (hl.buf ▸ hl.text.chars) (hl.buf ▸ hl.fits) (by omega)⟩, rfl, rfl⟩
    refine h.coherent.same ⟨rfl, rfl, rfl, rfl, rfl, rfl, rfl, rfl, ?_⟩ ⟨?_, h.coherent.saved, h.coherent.echoChar⟩
    · intro i hi
      exact addHistory_below hl.clear (by omega)
    · have hnum := h.held.numHistory
      have hfits := hl.fits
      have hline : ∀ c ∈ s.buf, Printing c := hl.buf ▸ holds_printing h.coherent.mem hl.text (by omega)
      have hrange : historyBuf + maxCmdline * s.history.toNat + maxCmdline * (s.numHistory - s.history.toNat) ≤ completionBuf := by
        rw [hmax]
        omega
      rw [addHistory_mem hl.clear]
      exact store_printing (move_printing h.coherent.mem _ hrange) (append_zero_printing hline) _
  next => exact ⟨h, rfl, rfl⟩

/-- A line is fetched, and drawn. -/
theorem Fine.fetch (h : Fine prompt s t) {history : Int} (hchars : (0 : Byte) ∉ line) (hfits : line.length < maxCmdline)
    (hline : ∀ c ∈ line, Printing c)
    (hplace : -1 ≤ history ∧ history < s.numHistory) (hsaved : 0 ≤ history → ∃ l, Holds 0 s.cmdline 0 l ∧ l.length < maxCmdline)
    (hprinted : 0 ≤ history → ∀ c ∈ str s.cmdline 0, Printing c) :
    Fine prompt (({ s with history := history } : State).fetch line) (t.fetch prompt dumb { s with history := history } line) := by
  have hholds : Holds 0 (Memory.store s.mem cmdlineBuf (line ++ [0])) cmdlineBuf line := StringPool.holds_store _ _ hchars
  have hbuf : str (Memory.store s.mem cmdlineBuf (line ++ [0])) cmdlineBuf = line := str_eq hholds hfits
  have hcoherent := h.coherent
  have hcopied :
      ({ s with history := history } : State).copied s.mem cmdlineBuf (line ++ [0]) = Memory.store s.mem cmdlineBuf (line ++ [0]) :=
    copied_clear (s := { s with history := history }) hcoherent.clear _ _ _
  refine ⟨?_, ?_⟩
  · rw [fetch_eq hcoherent.clear]
    unfold Screen.fetch State.buf
    dsimp only
    rw [hcopied, hbuf]
    exact .full (s := { s with mem := Memory.store s.mem cmdlineBuf (line ++ [0]), llen := line.length, lpos := line.length,
                               history := history })
      ⟨hcoherent.plen, hcoherent.short, hcoherent.printing⟩
        ⟨store_printing hcoherent.mem (append_zero_printing hline) _, hprinted, hcoherent.echoChar⟩
      ⟨hcoherent.clear, Nat.le_of_lt hfits, hcoherent.maxlen⟩ (Nat.le_refl _) hcoherent.reads 0
  · rw [fetch_eq hcoherent.clear, hbuf]
    obtain ⟨l, hl⟩ := h.held.line
    have hheld :
        Held { s with mem := Memory.store s.mem cmdlineBuf (line ++ [0]), llen := line.length, lpos := line.length,
                      history := history } := by
      refine ⟨⟨line, hl.clear, hholds, hfits, rfl, Nat.le_refl _, hl.maxlen⟩, h.held.numHistory, fun i hi => ?_, hplace, hsaved⟩
      obtain ⟨l', hholds', hl'⟩ := h.held.lines i hi
      have hhistory := historyBuf_eq
      refine ⟨l', hholds'.congr fun x hlo _ => ?_, hl'⟩
      show Memory.store s.mem cmdlineBuf (line ++ [0]) x = s.mem x
      apply Memory.store_of_ge
      rw [List.length_append, List.length_singleton]
      omega
    obtain ⟨l', hl'⟩ := hheld.line
    exact hheld.edited ⟨l', hl'.screen (clRefresh_screen _ true)⟩ (clRefresh_screen _ true).edits

theorem Screen.previous_eq (h : s.pending = false) (t : Screen) : t.previous prompt dumb s =
    let s₁ := if s.history < 0 then { s with cmdline := Memory.store s.cmdline 0 (s.buf ++ [0]) } else s.keepModified
    (s₁.getHistory (s₁.history + 1)).elim t fun p => t.fetch prompt dumb { s₁ with history := s₁.history + 1 } p := by
  unfold Screen.previous
  rw [copied_clear h]
  dsimp only
  split
  next hnone => rw [hnone]; rfl
  next hsome => rw [hsome]; rfl

theorem Fine.getHistory_printing (h : Fine prompt s t) {no : Int} (hl : s.getHistory no = some l) : ∀ c ∈ l, Printing c := by
  have hnum := h.held.numHistory
  have hcompletion : completionBuf = historyBuf + 1600 * 5 := rfl
  have hsize : historySize = 5 := rfl
  have hmax : maxCmdline = 1600 := rfl
  unfold State.getHistory at hl
  split at hl
  next => cases hl
  next hin =>
    obtain ⟨l', hholds, hfits⟩ := h.held.lines no.toNat (by omega)
    rw [str_eq hholds hfits] at hl
    obtain rfl := Option.some.inj hl
    exact holds_printing h.coherent.mem hholds (by rw [hmax]; omega)

/-- **C-p** -/
theorem Fine.previous (h : Fine prompt s t) : Fine prompt s.previous (t.previous prompt dumb s) := by
  have hfetch {s₁ : State} (h₁ : Fine prompt s₁ t) (hsaved : ∃ l, Holds 0 s₁.cmdline 0 l ∧ l.length < maxCmdline)
      (hprinted : ∀ c ∈ str s₁.cmdline 0, Printing c) :
      Fine prompt ((s₁.getHistory (s₁.history + 1)).elim s₁ fun p => ({ s₁ with history := s₁.history + 1 } : State).fetch p)
        ((s₁.getHistory (s₁.history + 1)).elim t fun p => t.fetch prompt dumb { s₁ with history := s₁.history + 1 } p) := by
    cases hline : s₁.getHistory (s₁.history + 1) with
    | none => exact h₁
    | some l =>
      obtain ⟨⟨hchars, hfits⟩, hlo, hhi⟩ := h₁.held.getHistory hline
      exact h₁.fetch hchars hfits (h₁.getHistory_printing hline) ⟨by omega, hhi⟩ (fun _ => hsaved) fun _ => hprinted
  rw [Line.previous_eq h.coherent.clear, Screen.previous_eq h.coherent.clear]
  by_cases hhistory : s.history < 0
  · obtain ⟨l, hl⟩ := h.held.line
    rw [if_pos hhistory, hl.buf]
    have hstored : Holds 0 (Memory.store s.cmdline 0 (l ++ [0])) 0 l := StringPool.holds_store _ _ hl.text.chars
    have hcompletion := completionBuf_eq
    have hfits := hl.fits
    have hprinting : ∀ c ∈ str (Memory.store s.cmdline 0 (l ++ [0])) 0, Printing c := by
      rw [str_eq hstored hl.fits]
      exact holds_printing h.coherent.mem hl.text (by omega)
    have hneg : ¬ 0 ≤ s.history := Int.not_le.2 hhistory
    refine hfetch ⟨?_, ?_⟩ ⟨l, hstored, hl.fits⟩ hprinting
    · exact h.coherent.same ⟨rfl, rfl, rfl, rfl, rfl, rfl, rfl, rfl, fun _ _ => rfl⟩
        ⟨h.coherent.mem, fun hpos => absurd hpos hneg, h.coherent.echoChar⟩
    · exact ⟨⟨l, hl.clear, hl.text, hl.fits, hl.llen, hl.lpos, hl.maxlen⟩, h.held.numHistory, h.held.lines, h.held.place,
        fun hpos => absurd hpos hneg⟩
  · obtain ⟨hkept, hsame, -⟩ := h.keepModified (by omega)
    rw [if_neg hhistory]
    exact hfetch hkept (hkept.held.saved (by omega)) (hkept.coherent.saved (by omega))

/-- **C-n** -/
theorem Fine.next (h : Fine prompt s t) : Fine prompt s.next (t.next prompt dumb s) := by
  unfold State.next Screen.next
  split
  next => exact h
  next hhistory =>
    obtain ⟨hkept, hsame, -⟩ := h.keepModified (by omega)
    have hplace := hkept.held.place
    have hget : ({ s.keepModified with history := s.keepModified.history - 1 } : State).getHistory (s.keepModified.history - 1) =
        s.keepModified.getHistory (s.keepModified.history - 1) := rfl
    obtain ⟨l, hsaved, hlen⟩ := hkept.held.saved (by omega)
    dsimp only
    rw [hget]
    cases hline : s.keepModified.getHistory (s.keepModified.history - 1) with
    | none =>
      have hprinting := hkept.coherent.saved (by omega)
      rw [Option.getD_none, str_eq hsaved hlen]
      rw [str_eq hsaved hlen] at hprinting
      exact hkept.fetch hsaved.chars hlen hprinting ⟨by omega, by omega⟩ (fun _ => ⟨l, hsaved, hlen⟩) fun _ =>
        hkept.coherent.saved (by omega)
    | some p =>
      obtain ⟨⟨hchars, hfits⟩, hlo, hhi⟩ := hkept.held.getHistory hline
      rw [Option.getD_some]
      exact hkept.fetch hchars hfits (hkept.getHistory_printing hline) ⟨by omega, hhi⟩ (fun _ => ⟨l, hsaved, hlen⟩) fun _ =>
        hkept.coherent.saved (by omega)

/-! ## Completion -/

/-- What is typed in for the word at `i`, when the completion has been copied. -/
def inserted (s : State) (i : Nat) (c : Completion) : List Byte :=
  str (Memory.store s.mem completionBuf (c.buffer ++ [0])) (completionBuf + (s.lpos - i))

/-- TAB draws the line again, or nothing that is drawn is the equal character behind the command. -/
def Restored (s : State) (completions : Completions) : Prop :=
  let equal := equalPos s.buf (commandEnd s.buf)
  let s₁ := s.putEqual equal 0x20
  let i := wordStart s₁.mem s₁.lpos
  let c := completions (decide (commandEnd s.buf < s.lpos)) (str (s₁.copyWord i).mem completionBuf)
  c.ret ≠ 0 ∨ ∀ j, equal = some j → j < s.lpos ∧ s.xpos + (inserted (s₁.copyWord i) i c).length < cmdlineWidth

namespace Screen

theorem write_reads (t : Screen) (c : Byte) : (t.write c).reads = t.reads := by
  unfold write
  split <;> rfl

theorem foldl_write_reads (l : List Byte) (t : Screen) : (l.foldl write t).reads = t.reads := by
  induction l generalizing t with
  | nil => rfl
  | cons c l ih => exact (ih (t.write c)).trans (write_reads t c)

theorem putchar_reads (t : Screen) (c : Byte) : (t.putchar c).reads = t.reads := by
  unfold putchar
  split
  · rfl
  · rfl
  · exact foldl_write_reads _ t
  · rfl
  · rfl
  · exact write_reads t c

theorem puts_reads (l : List Byte) (t : Screen) : (t.puts l).reads = t.reads := by
  induction l generalizing t with
  | nil => rfl
  | cons c l ih => exact (ih (t.putchar c)).trans (putchar_reads t c)

/-- What is read does not depend on what is on the screen. -/
theorem draw_reads (h : t.reads = t'.reads) (s : State) (pos start : Int) (len : Nat) :
    (t.draw dumb s pos start len).reads = (t'.draw dumb s pos start len).reads := by
  have hdraw (t : Screen) : (t.draw dumb s pos start len).reads =
      (List.range (min len (s.llen - start).toNat)).map (fun (k : Nat) => (start + k, s.llen)) ++ t.reads := by
    unfold draw
    dsimp only
    cases dumb with
    | true =>
      rw [if_pos rfl, puts_reads]
      split
      next => rw [putchar_reads, puts_reads]; rfl
      next => rw [puts_reads]; rfl
    | false =>
      rw [if_neg Bool.false_ne_true]
      unfold gotoxy
      dsimp only
      split
      next => rw [putchar_reads, puts_reads]; rfl
      next => rw [puts_reads]; rfl
  rw [hdraw, hdraw, h]

theorem refresh_reads (h : t.reads = t'.reads) (s : State) (full : Bool) (len : Nat) :
    (t.refresh prompt dumb s full len).reads = (t'.refresh prompt dumb s full len).reads := by
  unfold refresh
  dsimp only
  split
  next =>
    apply draw_reads
    rw [puts_reads, puts_reads, putchar_reads, putchar_reads, h]
  next => exact draw_reads h _ _ _ _

theorem insert_reads (hclear : s.pending = false) (h : t.reads = t'.reads) (u : List Byte) :
    (t.insert prompt dumb s u).reads = (t'.insert prompt dumb s u).reads := by
  rw [insert_eq hclear, insert_eq hclear]
  dsimp only
  split
  next =>
    split
    next => exact refresh_reads h _ _ _
    next =>
      split
      next => exact refresh_reads h _ _ _
      next => exact refresh_reads h _ _ _
  next => exact h

end Screen

/-- There is a screen for every line. -/
theorem Coherent.other (h : Coherent prompt s t) (hroomy : Roomy s') (hsection : s'.sectionNo = s.sectionNo) (hplen : s'.plen = s.plen)
    (hxpos : s'.xpos = s.xpos)
    (hlpos : s'.lpos = s.lpos) (hllen : s'.llen = s.llen) (hprinted : Printed s') : ∃ t', Coherent prompt s' t' ∧ t'.reads = t.reads := by
  have hfirst : s'.first = s.first := by rw [State.first, hsection, hplen]; rfl
  have hwindow : s'.windowStart = s.windowStart := by rw [State.windowStart, hsection, hplen]; rfl
  have hleft := h.left
  refine ⟨{ cells := fun _ => s'.cellAt prompt, y := 0, x := s.xpos.toNat, reads := t.reads },
    ⟨⟨hplen.trans h.plen, h.short, h.printing⟩, hprinted,
    hroomy, ⟨fun _ _ => rfl, ?_, ?_, ?_, hxpos ▸ h.right, h.reads⟩, ?_⟩, rfl⟩
  · rw [hxpos]
    exact Int.toNat_of_nonneg (by omega)
  · rw [hxpos, hfirst, hlpos, hwindow]
    exact h.xpos
  · rw [hfirst, hxpos]
    exact hleft
  · rw [hlpos, hllen]
    exact h.lpos

/-- Characters before what is drawn do not matter. -/
theorem refresh_part_congr {m : Nat → Byte}
    (hm : ∀ i : Nat, s.windowStart + (s.xpos - s.first) ≤ i → m (cmdlineBuf + i) = s.mem (cmdlineBuf + i))
    (len : Nat) :
    t.refresh prompt dumb { s with mem := m } false len = t.refresh prompt dumb s false len := by
  have hshown : (({ s with mem := m } : State).clRefresh false).shownFrom (s.windowStart + (s.xpos - s.first)) =
      (s.clRefresh false).shownFrom (s.windowStart + (s.xpos - s.first)) := by
    funext n
    apply List.map_congr_left
    intro k _
    show s.shown (m _) = s.shown (s.mem _)
    rw [hm _ (by omega)]
  show t.draw dumb _ s.xpos (s.windowStart + (s.xpos - s.first)) len = t.draw dumb _ s.xpos (s.windowStart + (s.xpos - s.first)) len
  unfold Screen.draw Screen.putBuf
  rw [hshown]
  rfl

theorem Screen.complete_eq (h : s.pending = false) (t : Screen) (completions : Completions) (listing : Screen → Screen) :
    t.complete prompt dumb s completions listing =
      let equal := equalPos s.buf (commandEnd s.buf)
      let s₁ := s.putEqual equal 0x20
      let i := wordStart s₁.mem s₁.lpos
      let c := completions (decide (commandEnd s.buf < s.lpos)) (str (s₁.copyWord i).mem completionBuf)
      let t₁ := t.putCompletion prompt dumb (s₁.copyWord i) i c
      if c.ret ≠ 0 then
        { listing (if 0 < c.ret then t₁.putchar 0x0A else t₁) with reads := t₁.reads }.init prompt dumb
          (((s₁.copyWord i).putCompletion i c).putEqual equal 0x3D)
      else t₁ := by
  have hsame (equal : Option Nat) (i : Nat) :
      ({ (s.putEqual equal 0x20).copyWord i with pending := false } : State) = (s.putEqual equal 0x20).copyWord i := by
    rw [← h]
    rfl
  unfold Screen.complete
  dsimp only
  rw [hsame]
  split
  next =>
    split
    next => rw [Screen.putchar_reads]
    next => rfl
  next => rfl

theorem Printed.putEqual (h : Printed s) (equal : Option Nat) (hc : Printing c) : Printed (s.putEqual equal c) := by
  refine ⟨?_, h.saved, h.echoChar⟩
  cases equal with
  | none => exact h.mem
  | some i => exact store_printing h.mem (fun c' hc' => List.mem_singleton.1 hc' ▸ hc) _

theorem copyWord_end (s : State) (i : Nat) : (s.copyWord i).mem (completionBuf + (s.lpos - i)) = 0 :=
  Memory.store_at (show 0 < [(0 : Byte)].length from Nat.zero_lt_one)

theorem Printed.copyWord (h : Printed s) (i : Nat) : Printed (s.copyWord i) :=
  ⟨fun x hx => copyWord_below s i hx ▸ h.mem x hx, h.saved, h.echoChar⟩

theorem Printed.insert (h : Printed s) (hroomy : Roomy s) (hlpos : s.lpos ≤ s.llen) (hu : ∀ c ∈ u, Printing c) :
    Printed (s.clInsert u) := by
  rw [clInsert_eq hroomy.clear]
  split
  next => exact ⟨insertedMem_printing h.mem hroomy.fits hlpos hu, h.saved, h.echoChar⟩
  next => exact h

theorem clInsert_plen (s : State) (u : List Byte) : (s.clInsert u).plen = s.plen := by
  unfold State.clInsert
  dsimp only
  split <;> rfl

/-- The completion is in its buffer. -/
def completed (s : State) (c : Completion) : State := { s with mem := Memory.store s.mem completionBuf (c.buffer ++ [0]) }

theorem Printed.completed (h : Printed s) (c : Completion) : Printed (completed s c) := by
  refine ⟨fun x hx => ?_, h.saved, h.echoChar⟩
  show Printing (Memory.store s.mem completionBuf (c.buffer ++ [0]) x)
  rw [Memory.store_of_lt hx]
  exact h.mem x hx

theorem putCompletion_eq (s : State) (i : Nat) (c : Completion) :
    s.putCompletion i c = if c.ret ≥ 0 then (completed s c).clInsert (inserted s i c) else completed s c := rfl

theorem Screen.putCompletion_eq (t : Screen) (s : State) (i : Nat) (c : Completion) :
    t.putCompletion prompt dumb s i c = if c.ret ≥ 0 then t.insert prompt dumb (completed s c) (inserted s i c) else t := rfl

/-- What is put in is of the completion, if the end of the word was in its buffer before. -/
theorem inserted_printing {i : Nat} (hend : s.mem (completionBuf + (s.lpos - i)) = 0) {c : Completion} (hc : ∀ b ∈ c.buffer, Printing b) :
    ∀ b ∈ inserted s i c, Printing b := by
  intro b hb
  obtain ⟨k, -, hcell, hbefore⟩ := mem_str hb
  obtain hlt | hge := Nat.lt_or_ge (s.lpos - i + k) (c.buffer ++ [(0 : Byte)]).length
  · have hat := Memory.store_at (m := s.mem) (a := completionBuf) hlt
    rw [← Nat.add_assoc, hcell] at hat
    rw [hat]
    exact append_zero_printing hc _ (List.getElem_mem hlt)
  · -- The end of the completion, or of the word, comes before.
    rw [List.length_append, List.length_singleton] at hge
    obtain hle | hgt := Nat.lt_or_ge c.buffer.length (s.lpos - i) |>.symm
    · have hlast : c.buffer.length < (c.buffer ++ [(0 : Byte)]).length := by simp
      have hat := Memory.store_at (m := s.mem) (a := completionBuf) hlast
      rw [List.getElem_append_right (Nat.le_refl _)] at hat
      have hnot := hbefore (c.buffer.length - (s.lpos - i)) (by omega)
      rw [Nat.add_assoc, Nat.add_sub_cancel' hle] at hnot
      exact absurd (hat.trans (by simp)) hnot
    · have hnot := hbefore 0 (Nat.zero_le _)
      rw [Nat.add_zero, Memory.store_of_ge (by rw [List.length_append, List.length_singleton]; omega)] at hnot
      exact absurd hend hnot

/-- The equal character is read as a space, and drawn so. -/
theorem Coherent.putCompletion_reads (h : Coherent prompt s t) (equal : Option Nat) (i : Nat) {c : Completion}
    (hc : ∀ b ∈ c.buffer, Printing b) :
    Inside (t.putCompletion prompt dumb ((s.putEqual equal 0x20).copyWord i) i c).reads := by
  have hprinted : Printed ((s.putEqual equal 0x20).copyWord i) := (h.toPrinted.putEqual equal (by decide)).copyWord i
  rw [Screen.putCompletion_eq]
  split
  next =>
    have hother : ∃ t', Coherent prompt (completed ((s.putEqual equal 0x20).copyWord i) c) t' ∧ t'.reads = t.reads :=
      h.other ⟨h.clear, h.fits, h.maxlen⟩ rfl rfl rfl rfl rfl (hprinted.completed c)
    obtain ⟨t', ht', hreads⟩ := hother
    have hclear : (completed ((s.putEqual equal 0x20).copyWord i) c).pending = false := h.clear
    rw [Screen.insert_reads hclear hreads.symm]
    exact (ht'.insert fun _ => inserted_printing (copyWord_end _ i) hc).reads
  next => exact h.reads

/-- The completion is put in, and the equal character before the cursor is put back. -/
theorem Coherent.putCompletion (h : Coherent prompt s t) {equal : Option Nat} (i : Nat) {c : Completion}
    (hc : ∀ b ∈ c.buffer, Printing b) (hequal : ∀ j, equal = some j → s.mem (cmdlineBuf + j) = 0x3D)
    (hdrawn : ∀ j, equal = some j → j < s.lpos ∧ s.xpos + (inserted ((s.putEqual equal 0x20).copyWord i) i c).length < cmdlineWidth) :
    Coherent prompt ((((s.putEqual equal 0x20).copyWord i).putCompletion i c).putEqual equal 0x3D)
      (t.putCompletion prompt dumb ((s.putEqual equal 0x20).copyWord i) i c) := by
  have hlpos := h.lpos
  have hxpos := h.xpos
  have hcompletion := completionBuf_eq
  have hprinted : Printed ((s.putEqual equal 0x20).copyWord i) := (h.toPrinted.putEqual equal (by decide)).copyWord i
  have hcompleted := hprinted.completed c
  have hprinting := inserted_printing (copyWord_end (s.putEqual equal 0x20) i) hc
  have hfits := h.fits
  -- The cells of the line, but the one that is a space for a while.
  have hcells (x : Nat) (hx : x < s.llen) (hne : ∀ j, equal = some j → x ≠ j) :
      (completed ((s.putEqual equal 0x20).copyWord i) c).mem (cmdlineBuf + x) = s.mem (cmdlineBuf + x) := by
    have hput : (s.putEqual equal 0x20).mem (cmdlineBuf + x) = s.mem (cmdlineBuf + x) := by
      cases equal with
      | none => rfl
      | some j =>
        obtain hlt | hgt := Nat.lt_or_gt_of_ne (hne j rfl)
        · exact Memory.store_of_lt (by omega)
        · exact Memory.store_of_ge (by rw [List.length_singleton]; omega)
    refine (Memory.store_of_lt (by omega)).trans ?_
    rw [← hput]
    exact copyWord_below _ i (by omega)
  have hback {m : Nat → Byte} {x : Nat} (hx : x < s.llen)
      (hm : (∀ j, equal = some j → x ≠ j) → m (cmdlineBuf + x) = (completed ((s.putEqual equal 0x20).copyWord i) c).mem (cmdlineBuf + x)) :
      (equal.elim m fun j => Memory.store m (cmdlineBuf + j) [0x3D]) (cmdlineBuf + x) = s.mem (cmdlineBuf + x) := by
    cases equal with
    | none => exact (hm fun _ hj => nomatch hj).trans (hcells x hx fun _ hj => nomatch hj)
    | some j =>
      show Memory.store m (cmdlineBuf + j) [0x3D] (cmdlineBuf + x) = _
      by_cases hne : x = j
      · subst hne
        rw [hequal x rfl]
        exact Memory.store_at (show 0 < [(0x3D : Byte)].length from Nat.zero_lt_one)
      · have hother : ∀ k, some j = some k → x ≠ k := fun k hk => Option.some.inj hk ▸ hne
        have hkeep : Memory.store m (cmdlineBuf + j) [0x3D] (cmdlineBuf + x) = m (cmdlineBuf + x) := by
          obtain hlt | hgt := Nat.lt_or_gt_of_ne hne
          · exact Memory.store_of_lt (by omega)
          · exact Memory.store_of_ge (by rw [List.length_singleton]; omega)
        exact hkeep.trans ((hm hother).trans (hcells x hx hother))
  have hunchanged : Coherent prompt ((completed ((s.putEqual equal 0x20).copyWord i) c).putEqual equal 0x3D) t :=
    h.same ⟨rfl, rfl, rfl, rfl, rfl, rfl, rfl, rfl, fun x hx => hback hx fun _ => rfl⟩ (hcompleted.putEqual equal (by decide))
  rw [putCompletion_eq, Screen.putCompletion_eq]
  generalize inserted ((s.putEqual equal 0x20).copyWord i) i c = u at hdrawn hprinting ⊢
  split
  next =>
    cases equal with
    | none => exact Coherent.insert hunchanged fun _ => hprinting
    | some j =>
      obtain ⟨hj, hpart⟩ := hdrawn j rfl
      have hclear : (completed ((s.putEqual (some j) 0x20).copyWord i) c).pending = false := h.clear
      have hmaxlen : (completed ((s.putEqual (some j) 0x20).copyWord i) c).maxlen ≤ maxCmdline := h.maxlen
      have hSfits :
          (completed ((s.putEqual (some j) 0x20).copyWord i) c).lpos ≤ (completed ((s.putEqual (some j) 0x20).copyWord i) c).llen := h.lpos
      rw [clInsert_eq hclear, Screen.insert_eq hclear]
      generalize hS : completed ((s.putEqual (some j) 0x20).copyWord i) c = S at hcompleted hcells hback hunchanged hclear hmaxlen hSfits ⊢
      obtain ⟨hx, hl, hp, hsec, hpl, hecho⟩ :
          S.xpos = s.xpos ∧ S.llen = s.llen ∧ S.lpos = s.lpos ∧ S.sectionNo = s.sectionNo ∧ S.plen = s.plen ∧
          S.echoChar = s.echoChar := by
        rw [← hS]
        exact ⟨rfl, rfl, rfl, rfl, rfl, rfl⟩
      have hfirst : S.first = s.first := by rw [State.first, hsec, hpl]; rfl
      have hwindow : S.windowStart = s.windowStart := by rw [State.windowStart, hsec, hpl]; rfl
      have hnotfull : ¬ S.xpos + u.length ≥ cmdlineWidth := by omega
      dsimp only
      rw [if_neg hnotfull, decide_eq_false hnotfull]
      split
      next hroom =>
        have hdraw {len : Nat} (hbehind : s.xpos + len = cmdlineWidth ∨ s.llen ≤ s.lpos + len ∧ s.llen + u.length ≤ s.lpos + len)
            (hcursor : s.lpos + u.length ≤ s.lpos + len) (hlen : s.xpos + len ≤ cmdlineWidth) :
            Coherent prompt
              ((({ S with mem := insertedMem S u, llen := S.llen + u.length, lpos := S.lpos + u.length } : State).clRefresh false).putEqual
                (some j) 0x3D)
              (t.refresh prompt dumb { S with mem := insertedMem S u, llen := S.llen + u.length, lpos := S.lpos + u.length } false
                len) := by
          have hcongr :=
            @refresh_part_congr prompt dumb { S with mem := insertedMem S u, llen := S.llen + u.length, lpos := S.lpos + u.length } t
            (Memory.store (insertedMem S u) (cmdlineBuf + j) [0x3D]) (fun x hx' => by
              apply Memory.store_of_ge
              have hstart : S.windowStart + (S.xpos - S.first) ≤ (x : Int) := hx'
              rw [List.length_singleton]
              omega) len
          rw [← hcongr]
          have hput :
              Printed { S with mem := Memory.store (insertedMem S u) (cmdlineBuf + j) [0x3D], llen := S.llen + u.length,
                               lpos := S.lpos + u.length } :=
            ⟨store_printing (insertedMem_printing hcompleted.mem (by omega) hSfits hprinting)
              (fun _ hb => List.mem_singleton.1 hb ▸ by decide) _,
              hcompleted.saved, hcompleted.echoChar⟩
          have hroomy :
              Roomy { S with mem := Memory.store (insertedMem S u) (cmdlineBuf + j) [0x3D], llen := S.llen + u.length,
                             lpos := S.lpos + u.length } :=
            ⟨hclear, by show S.llen + u.length ≤ maxCmdline; omega, hmaxlen⟩
          refine h.part hput hroomy ⟨hsec, hpl, hecho, hx, fun x hx' => ?_, ?_, ?_, ?_⟩ hlen ?_
          · exact hback (m := insertedMem S u) (by omega) fun _ => insertedMem_before (by omega)
          · show s.lpos ≤ s.llen ∧ s.lpos ≤ S.lpos + u.length ∧ S.lpos + u.length ≤ S.llen + u.length
            omega
          · rw [hl]
            exact hbehind
          · rw [hp]
            exact hcursor
          · show (S.first : Int) + ((S.lpos + u.length : Nat) - S.windowStart) < cmdlineWidth
            omega
        split
        next => exact hdraw (.inl (by omega)) (by omega) (by omega)
        next => exact hdraw (.inr (by omega)) (by omega) (by omega)
      next => exact hunchanged
  next => exact hunchanged

/-- **TAB** -/
theorem Fine.complete (h : Fine prompt s t) {completions : Completions} (hc : ∀ b w, ∀ c ∈ (completions b w).buffer, Printing c)
    (hrestored : Restored s completions) (listing : Screen → Screen) :
    Fine prompt (s.complete completions) (t.complete prompt dumb s completions listing) := by
  obtain ⟨l, hl⟩ := h.held.line
  obtain ⟨l', hedited⟩ := hl.complete completions
  refine ⟨?_, h.held.edited ⟨l', hedited.lies⟩ hedited.edits⟩
  have hllen := hedited.lies.llen
  have hlpos := hedited.lies.lpos
  have hclear := hedited.lies.clear
  have hmaxlen := hedited.lies.maxlen
  have hfits := hedited.lies.fits
  unfold Restored at hrestored
  rw [complete_eq hl.clear] at hllen hlpos hclear hmaxlen ⊢
  rw [Screen.complete_eq hl.clear]
  dsimp only at hrestored hllen hlpos hclear hmaxlen ⊢
  generalize hequal : equalPos s.buf (commandEnd s.buf) = equal at hrestored hllen hlpos hclear hmaxlen ⊢
  generalize wordStart (s.putEqual equal 0x20).mem (s.putEqual equal 0x20).lpos = i at hrestored hllen hlpos hclear hmaxlen ⊢
  have hbuffer := hc (decide (commandEnd s.buf < s.lpos)) (str ((s.putEqual equal 0x20).copyWord i).mem completionBuf)
  generalize completions (decide (commandEnd s.buf < s.lpos)) (str ((s.putEqual equal 0x20).copyWord i).mem completionBuf) = c
    at hrestored hllen hlpos hclear hmaxlen hbuffer ⊢
  by_cases hret : c.ret ≠ 0
  · -- The line is drawn again, behind what has been printed.
    rw [if_pos hret] at hllen hlpos hclear hmaxlen ⊢
    rw [if_pos hret]
    have hprinted : Printed ((((s.putEqual equal 0x20).copyWord i).putCompletion i c).putEqual equal 0x3D) := by
      have hcopied : Printed ((s.putEqual equal 0x20).copyWord i) := (h.coherent.toPrinted.putEqual equal (by decide)).copyWord i
      apply Printed.putEqual _ equal (by decide)
      rw [putCompletion_eq]
      split
      next =>
        exact (hcopied.completed c).insert ⟨h.coherent.clear, h.coherent.fits, h.coherent.maxlen⟩ h.coherent.lpos
          (inserted_printing (copyWord_end _ i) hbuffer)
      next => exact hcopied.completed c
    have hplen : ((((s.putEqual equal 0x20).copyWord i).putCompletion i c).putEqual equal 0x3D).plen = s.plen := by
      show (((s.putEqual equal 0x20).copyWord i).putCompletion i c).plen = s.plen
      rw [putCompletion_eq]
      split
      next => exact clInsert_plen _ _
      next => rfl
    apply Coherent.full ⟨hplen.trans h.coherent.plen, h.coherent.short, h.coherent.printing⟩ hprinted
      ⟨hclear, by rw [← hllen] at hfits; exact hfits.le, hmaxlen⟩
      (hlpos.trans hllen.symm.le)
    rw [Screen.putchar_reads]
    exact h.coherent.putCompletion_reads equal i hbuffer
  · rw [if_neg hret, if_neg hret]
    refine h.coherent.putCompletion i hbuffer ?_ (hrestored.resolve_left hret)
    intro j hj
    rw [hl.buf, hj] at hequal
    obtain ⟨hin, hcell⟩ := List.getElem?_eq_some_iff.1 (equalPos_spec hequal)
    exact (hl.text.getElem hin).trans hcell

/-! ## Keys -/

/-- What is typed can be shown, and TAB leaves nothing wrong on the screen. -/
structure Pressed (s : State) (k : Press) : Prop where
  buffer : ∀ b w, ∀ c ∈ (k.completions b w).buffer, Printing c
  restored : k.c.toNat = 9 → s.readline = true → Restored s k.completions

theorem Fine.edited (h : Fine prompt s t) {s' : State} {t' : Screen} (hcoherent : Coherent prompt s' t') {l l' : List Byte}
    (hedited : Edited s l s' l') :
    Fine prompt s' t' := ⟨hcoherent, h.held.edited ⟨l', hedited.lies⟩ hedited.edits⟩

theorem Fine.backward (h : Fine prompt s t) (hcount : count ≤ s.lpos) :
    Fine prompt (s.clBackward count) (t.backward prompt dumb s count) := by
  obtain ⟨l, hl⟩ := h.held.line
  exact h.edited (h.coherent.backward hcount) (hl.backward count)

theorem Fine.forward (h : Fine prompt s t) (hcount : s.lpos + count ≤ s.llen) :
    Fine prompt (s.clForward count) (t.forward prompt dumb s count) := by
  obtain ⟨l, hl⟩ := h.held.line
  exact h.edited (h.coherent.forward hcount) (hl.forward (hl.llen ▸ hcount))

theorem Fine.insert (h : Fine prompt s t) (hzero : (0 : Byte) ∉ u) (hu : (s.llen + u.length : Int) < s.maxlen → ∀ c ∈ u, Printing c) :
    Fine prompt (s.clInsert u) (t.insert prompt dumb s u) := by
  obtain ⟨l, hl⟩ := h.held.line
  obtain ⟨l', hgrown⟩ := hl.insert hzero
  exact h.edited (h.coherent.insert hu) hgrown.edited

theorem Fine.delete (h : Fine prompt s t) (hcount : s.lpos + count ≤ s.llen) :
    Fine prompt (s.clDelete count) (t.delete prompt dumb s count) := by
  obtain ⟨l, hl⟩ := h.held.line
  exact h.edited (h.coherent.delete hcount) (hl.delete (hl.llen ▸ hcount))

/-- **The readline-like keys.** -/
theorem Fine.readlineKey (h : Fine prompt s t) (hreadline : s.readline = true) {k : Press} (hk : Pressed s k) :
    Fine prompt (s.readlineKey k.toKey) (t.readlineKey prompt dumb s k) := by
  obtain ⟨l, hl⟩ := h.held.line
  have hlpos := h.coherent.lpos
  unfold State.readlineKey Screen.readlineKey
  generalize hc : k.c.toNat = c
  split
  next => exact h.complete hk.buffer (hk.restored hc hreadline) k.listing
  next => exact h.backward (Nat.le_refl _)
  next => exact h.forward (by omega)
  next =>
    split
    next => exact h.forward (by omega)
    next => exact h
  next =>
    split
    next => exact h.backward (by omega)
    next => exact h
  next =>
    obtain ⟨l', hedited⟩ := hl.killBackward
    exact h.edited h.coherent.killBackward hedited
  next =>
    obtain ⟨l', hedited⟩ := hl.killForward
    exact h.edited h.coherent.killForward hedited
  next =>
    -- no more than the kill buffer is put in
    refine h.insert (str_chars s.mem killBuf) fun hroom => str_printing h.coherent.mem ?_
    have hmaxlen := h.coherent.maxlen
    have hcompletion : completionBuf = killBuf + maxCmdline + maxCmdline * historySize := rfl
    omega
  next => exact h.previous
  next => exact h.next
  next =>
    try split
    all_goals first
      | contradiction
      | exact h

/-- **A key** that does not return. -/
theorem Fine.key (h : Fine prompt s t) {k : Press} (hk : Pressed s k) (hkey : s.key k.toKey = .editing s') :
    Fine prompt s' (t.key prompt dumb s k) := by
  unfold State.key at hkey
  unfold Screen.key
  split at hkey
  next => cases hkey
  next =>
    have hread :
        Fine prompt (if s.readline then s.readlineKey k.toKey else s) (if s.readline then t.readlineKey prompt dumb s k else t) := by
      split
      next hreadline => exact h.readlineKey hreadline hk
      next => exact h
    dsimp only at hkey ⊢
    generalize (if s.readline then s.readlineKey k.toKey else s) = s₁ at hkey hread ⊢
    generalize (if s.readline then t.readlineKey prompt dumb s k else t) = t₁ at hread ⊢
    have hlpos := hread.coherent.lpos
    have hchar : 0x20 ≤ k.c.toNat → Fine prompt (s₁.clInsert [k.c]) (t₁.insert prompt dumb s₁ [k.c]) := by
      intro hlow
      apply hread.insert
      · exact fun hzero => toNat_lt_ne_zero hlow (List.mem_singleton.1 hzero).symm
      · intro _ c hc
        rw [List.mem_singleton.1 hc]
        unfold Printing
        omega
    generalize k.c.toNat = c at hkey hchar ⊢
    split at hkey
    next => cases hkey
    next =>
      cases hkey
      show Fine prompt _ (if s₁.lpos = s₁.llen then t₁ else t₁.delete prompt dumb s₁ 1)
      split
      next => exact hread
      next => exact hread.delete (by omega)
    next =>
      cases hkey
      show Fine prompt _ (if 0 < s₁.lpos then (t₁.backward prompt dumb s₁ 1).delete prompt dumb (s₁.clBackward 1) 1 else t₁)
      split
      next hpos =>
        have hscreen := clBackward_screen s₁ 1
        apply (hread.backward hpos).delete
        rw [hscreen.lpos, hscreen.llen]
        show s₁.lpos - 1 + 1 ≤ s₁.llen
        omega
      next => exact hread
    next =>
      cases hkey
      have hprintable : Fine prompt (if 0x20 ≤ c ∧ c ≤ 0x7E then s₁.clInsert [k.c] else s₁)
          (if 0x20 ≤ c ∧ c ≤ 0x7E then t₁.insert prompt dumb s₁ [k.c] else t₁) := by
        split
        next hin => exact hchar hin.1
        next => exact hread
      generalize (if 0x20 ≤ c ∧ c ≤ 0x7E then s₁.clInsert [k.c] else s₁) = s₂ at hprintable ⊢
      generalize ht₂ : (if 0x20 ≤ c ∧ c ≤ 0x7E then t₁.insert prompt dumb s₁ [k.c] else t₁) = t₂ at hprintable ⊢
      try split
      all_goals first
        | contradiction
        | exact hprintable
        | exact ht₂ ▸ hprintable

/-! ## Runs of keys -/

/-- The keys meet the condition, each in the state that it is pressed in. -/
def PressedKeys : State → List Press → Prop
  | _, [] => True
  | s, k :: ks => Pressed s k ∧ ∀ s', s.key k.toKey = .editing s' → PressedKeys s' ks

theorem Fine.typed (ks : List Press) : ∀ {s : State} {t : Screen}, Fine prompt s t → PressedKeys s ks →
    Line.typed prompt dumb s t ks = some (s', t') → Fine prompt s' t' := by
  induction ks with
  | nil =>
    intro s t h _ htyped
    cases htyped
    exact h
  | cons k ks ih =>
    intro s t h hpressed htyped
    rw [Line.typed] at htyped
    generalize hkey : s.key k.toKey = o at htyped
    cases o with
    | editing s₁ => exact ih (h.key hpressed.1 hkey) (hpressed.2 s₁ hkey) htyped
    | returned ret s₁ => cases htyped

/-! ### The start -/

theorem Screen.opened_init (t : Screen) (s : State) : t.opened prompt dumb s.clInit = t.init prompt dumb s := rfl

variable {mem cmdline : Nat → Byte} {kill : List Byte} {history : List (List Byte)} {maxlen : Int} {echoChar : Byte} {readline : Bool}

/-- Every byte of the buffers takes one column, and the prompt leaves room in front of the margin. -/
structure Displayable (prompt line : List Byte) (mem : Nat → Byte) (echoChar : Byte) : Prop where
  short : prompt.length + cmdlineMargin < cmdlineWidth
  prompt : ∀ c ∈ prompt, Printing c
  line : ∀ c ∈ line, Printing c
  mem : ∀ i < completionBuf, Printing (mem i)
  echoChar : Printing echoChar

theorem Shows.held {e : Editor} (h : Shows s e) : Held s where
  line := ⟨e.text, h.clear, h.text, h.textFits, h.llen, h.lpos.le.trans h.cursor, h.maxlen⟩
  numHistory := h.numHistory.le.trans h.historyFits
  lines i hi := by
    rw [h.numHistory] at hi
    exact ⟨e.history[i], h.lines i _ (List.getElem?_eq_getElem hi)⟩
  place := by
    rw [h.history, h.numHistory]
    cases hplace : e.place with
    | none => exact ⟨Int.le_refl _, by simp only [Option.elim]; omega⟩
    | some i =>
      obtain ⟨hi, -⟩ := h.place i hplace
      exact ⟨by simp only [Option.elim]; omega, Int.ofNat_lt.2 hi⟩
  saved hhistory := by
    rw [h.history] at hhistory
    cases hplace : e.place with
    | none =>
      rw [hplace] at hhistory
      exact absurd hhistory (by decide)
    | some i => exact ⟨e.saved, (h.place i hplace).2⟩

/-- **The screen before the first key**. -/
theorem start_fine (hline : Holds 0 cmdline 0 line) (hfits : line.length < maxCmdline) (hmem : Remembers mem kill history)
    (hdisplay : Displayable prompt line mem echoChar) (hreads : t.reads = []) :
    Fine prompt (start prompt cmdline maxlen echoChar readline false mem history.length)
      (t.opened prompt dumb (start prompt cmdline maxlen echoChar readline false mem history.length)) := by
  refine ⟨?_, (start_shows hline hfits hmem prompt maxlen echoChar readline).held⟩
  rw [start_eq hline hfits, Screen.opened_init]
  have hnowhere : ¬ (0 : Int) ≤ -1 := by decide
  apply Coherent.full ⟨rfl, hdisplay.short, hdisplay.prompt⟩
    ⟨store_printing hdisplay.mem (append_zero_printing hdisplay.line) _, fun hpos => absurd hpos hnowhere, hdisplay.echoChar⟩
    ⟨rfl, hfits.le, min_le_right _ _⟩ (Nat.le_refl _)
  rw [Screen.putchar_reads, hreads]
  exact fun p hp => nomatch hp

/-- **The line is shown behind every key**, and as a full redraw of the section shows it. -/
theorem typed_shown (hline : Holds 0 cmdline 0 line) (hfits : line.length < maxCmdline) (hmem : Remembers mem kill history)
    (hdisplay : Displayable prompt line mem echoChar) (dumb : Bool) (ks : List Press)
    (hpressed : PressedKeys (start prompt cmdline maxlen echoChar readline false mem history.length) ks) (hreads : t.reads = [])
    (htyped : typed prompt dumb (start prompt cmdline maxlen echoChar readline false mem history.length)
      (t.opened prompt dumb (start prompt cmdline maxlen echoChar readline false mem history.length)) ks = some (s', t')) :
    Shown prompt s' t' ∧ s'.lpos ≤ s'.llen ∧
      ∀ before : Screen, before.reads = [] → ∀ col ≤ cmdlineWidth, t'.row col = (before.redraw prompt dumb s').row col := by
  have hfine := Fine.typed ks (start_fine hline hfits hmem hdisplay hreads) hpressed htyped
  have hcoherent := hfine.coherent
  refine ⟨hcoherent.toShown, hcoherent.lpos, fun before hbefore col hcol => ?_⟩
  have hredrawn : Shown prompt s' (before.redraw prompt dumb s') := by
    apply redraw_shown hcoherent.toPrompted (hcoherent.legible hcoherent.fits) ⟨hcoherent.xpos, hcoherent.left, hcoherent.right⟩
    rw [hbefore]
    exact fun p hp => nomatch hp
  rw [hcoherent.row col hcol, hredrawn.row col hcol]

/-! ### Two lines -/

/-- TAB apart, every key meets the condition. -/
theorem pressedKeys_of_ne (ks : List Press) (hks : ∀ k ∈ ks, k.c.toNat ≠ 9 ∧ ∀ b w, ∀ c ∈ (k.completions b w).buffer, Printing c) :
    ∀ s, PressedKeys s ks := by
  induction ks with
  | nil => exact fun _ => trivial
  | cons k ks ih =>
    intro s
    obtain ⟨htab, hbuffer⟩ := hks k List.mem_cons_self
    exact ⟨⟨hbuffer, fun hc => absurd hc htab⟩, fun s' _ => ih (fun k hk => hks k (List.mem_cons_of_mem _ hk)) s'⟩

/-- A screen with nothing on it. -/
def blank : Screen := ⟨fun _ _ => 0x20, 0, 0, []⟩

/-- Keys, where nothing is completed. -/
def pressing (cs : List Byte) : List Press := cs.map fun c => ⟨⟨c, fun _ _ => ⟨-1, []⟩⟩, id⟩

theorem pressing_buffer {cs : List Byte} : ∀ k ∈ pressing cs, ∀ b w, ∀ c ∈ (k.completions b w).buffer, Printing c := by
  intro k hk b w c hc
  obtain ⟨_, -, rfl⟩ := List.mem_map.1 hk
  cases hc

/-- A character, C-b and another one behind `> `. -/
theorem typed_shown_two : ∃ s t, typed [0x3E, 0x20] false (start [0x3E, 0x20] (cells [0x61]) 100 0 true false (fun _ => 0) 0)
      (blank.opened [0x3E, 0x20] false (start [0x3E, 0x20] (cells [0x61]) 100 0 true false (fun _ => 0) 0)) (pressing [0x62, 2, 0x63]) =
        some (s, t) ∧
    Shown [0x3E, 0x20] s t := by
  have hline : Holds 0 (cells [0x61]) 0 [0x61] := StringPool.holds_store _ _ (by decide)
  have hdisplay : Displayable [0x3E, 0x20] [0x61] (fun _ => 0) 0 := ⟨by decide, by decide, by decide, fun _ _ => by decide, by decide⟩
  obtain ⟨⟨s, t⟩, htyped⟩ :=
    Option.isSome_iff_exists.1 (show (typed [0x3E, 0x20] false (start [0x3E, 0x20] (cells [0x61]) 100 0 true false (fun _ => 0) 0)
    (blank.opened [0x3E, 0x20] false (start [0x3E, 0x20] (cells [0x61]) 100 0 true false (fun _ => 0) 0))
      (pressing [0x62, 2, 0x63])).isSome = true by decide +kernel)
  refine ⟨s, t, htyped, (typed_shown hline (by decide) remembers_nothing hdisplay false _ (pressedKeys_of_ne _ ?_ _) rfl htyped).1⟩
  intro k hk
  refine ⟨?_, pressing_buffer k hk⟩
  obtain ⟨c, hc, rfl⟩ := List.mem_map.1 hk
  have hkeys : ∀ c ∈ [(0x62 : Byte), 2, 0x63], c.toNat ≠ 9 := by decide
  exact hkeys c hc

/-- The cursor goes back from the end of a line into the margin of its section. -/
def margin : Option (State × Screen) :=
  typed [] false (start [] (cells (List.replicate 150 0x61)) 1600 0 true false (fun _ => 0) 0)
    (blank.opened [] false (start [] (cells (List.replicate 150 0x61)) 1600 0 true false (fun _ => 0) 0)) (pressing (List.replicate 10 2))

theorem margin_kept : margin.map (fun p => (p.2.row 78, (blank.refresh [] false p.1 true 0).row 78)) = some (0x20, 0x3E) := by
  decide +kernel

/-- Nor is a full redraw, which chooses the section anew, the same. -/
theorem typed_redrawn :
    ¬ ∀ (prompt line kill : List Byte) (history : List (List Byte)) (mem cmdline : Nat → Byte) (maxlen : Int) (echoChar : Byte)
    (readline dumb : Bool) (ks : List Press) (s : State)
    (t₀ t : Screen), Holds 0 cmdline 0 line → line.length < maxCmdline → Remembers mem kill history →
    prompt.length + cmdlineMargin < cmdlineWidth → t₀.reads = [] →
    typed prompt dumb (start prompt cmdline maxlen echoChar readline false mem history.length)
      (t₀.opened prompt dumb (start prompt cmdline maxlen echoChar readline false mem history.length)) ks = some (s, t) →
    Shown prompt s t ∧ ∀ before : Screen, before.reads = [] → ∀ col ≤ cmdlineWidth,
      t.row col = (before.refresh prompt dumb s true 0).row col := by
  intro hall
  have hkept := margin_kept
  obtain ⟨⟨s, t⟩, htyped, hcols⟩ := Option.map_eq_some_iff.1 hkept
  have hline : Holds 0 (cells (List.replicate 150 0x61)) 0 (List.replicate 150 0x61) := StringPool.holds_store _ _ (by simp)
  have hfits : (List.replicate 150 (0x61 : Byte)).length < maxCmdline := by
    rw [List.length_replicate]
    decide
  obtain ⟨-, hsame⟩ := hall [] _ [] [] (fun _ => 0) _ 1600 0 true false _ s blank t hline hfits remembers_nothing (by decide) rfl htyped
  have hcol := hsame blank rfl 78 (Nat.le_refl _)
  obtain ⟨hshown, hredrawn⟩ := Prod.mk.inj hcols
  rw [hshown, hredrawn] at hcol
  exact absurd hcol (by decide)

end TrustedGrub.Line
