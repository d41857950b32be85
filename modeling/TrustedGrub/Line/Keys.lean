import TrustedGrub.Line.Refines

/-!
# Runs of keys

From any line, kill buffer and history, every sequence of keys leaves what the editor comes to.
-/

namespace TrustedGrub.Line
open Fips180 (Byte)
open StringPool (Holds)

variable {s s' : State} {e e' : Editor} {t : List Byte} {n : Nat}

/-! ## One key -/

/-- The condition on a key: what `cl_delete` moves lies in the buffer, and nothing is put in before the equal character
after the command. -/
structure Sound (e : Editor) (max : Int) (readline : Bool) (k : Key) : Prop where
  delete : k.c.toNat = 4 → e.cursor < e.text.length → e.cursor + e.text.length ≤ maxCmdline
  backspace : k.c.toNat = 8 → 0 < e.cursor → e.cursor + e.text.length ≤ maxCmdline + 1
  kill : k.c.toNat = 11 → readline → e.cursor < e.text.length → 2 * e.cursor < maxCmdline
  tab : k.c.toNat = 9 → readline → ¬ Overtakes e max k.completions

/-- The other keys have no condition. -/
theorem Sound.other {max : Int} {readline : Bool} {k : Key} (h : k.c.toNat ∉ [4, 8, 9, 11]) : Sound e max readline k := by
  refine ⟨?_, ?_, ?_, ?_⟩ <;> intro hc <;> simp [hc] at h

theorem Shows.yank (h : Shows s e) : Step s (s.clInsert (str s.mem killBuf)) (e.yank s.maxlen) := by
  rw [str_eq h.kill h.killFits]
  exact h.insert h.kill.chars

/-- **The readline-like keys.** -/
theorem Shows.readlineKey (h : Shows s e) {k : Key} (hcompletions : Completing k.completions) (hsound : Sound e s.maxlen true k) :
    Step s (s.readlineKey k) (e.readlineKey s.maxlen k) := by
  have hcursor := h.cursor
  have hlpos := h.lpos
  have hllen := h.llen
  unfold State.readlineKey Editor.readlineKey
  generalize hc : k.c.toNat = c
  split
  next => exact h.complete hcompletions (hsound.tab hc rfl)
  next =>
    rw [hlpos]
    exact h.backward e.cursor
  next =>
    rw [hlpos, hllen]
    exact h.forward (Nat.add_sub_cancel' hcursor).le
  next =>
    rw [hlpos, hllen]
    show Step s _ (if e.cursor < e.text.length then e.forward 1 else e)
    split
    next hlt => exact h.forward hlt
    next => exact .refl h
  next =>
    rw [hlpos]
    show Step s _ (if 0 < e.cursor then e.backward 1 else e)
    split
    · exact h.backward 1
    · exact .refl h
  next => exact h.killBackward
  next => exact h.killForward (hsound.kill hc rfl)
  next => exact h.yank
  next => exact h.previous
  next => exact h.next
  next =>
    -- the editor's cases are the same keys
    try split
    all_goals first
      | contradiction
      | exact .refl h

/-! ### The end of a line -/

theorem finish_eq (h : s.pending = false) : s.finish =
    let lpos := if s.echoChar = 0 then (s.buf.takeWhile fun c => c = 0x20).length else 0
    let s' : State := { s with lpos, cmdline := Memory.store s.cmdline 0 (Memory.slice s.mem (cmdlineBuf + lpos) (s.llen - lpos + 1)) }
    if s.readline ∧ lpos < s.llen then s'.addHistory (str s'.cmdline 0) 0 else s' := by
  unfold State.finish
  simp only [copied_clear h]

/-- **The line that is entered.** -/
theorem Shows.finish (h : Shows s e) :
    Buffers s.finish (e.enter s.echoChar s.readline) ∧ Holds 0 s.finish.cmdline 0 (e.line s.echoChar) := by
  obtain ⟨w, hw, htext⟩ :
      ∃ w, w.length = (if s.echoChar = 0 then (s.buf.takeWhile fun c => c = 0x20).length else 0) ∧ e.text = w ++ e.line s.echoChar := by
    unfold Editor.line
    rw [h.buf]
    split
    · exact ⟨_, rfl, (List.takeWhile_append_dropWhile).symm⟩
    · exact ⟨[], rfl, rfl⟩
  have hfits : (e.line s.echoChar).length < maxCmdline := by
    have hall := h.textFits
    rw [htext, List.length_append] at hall
    omega
  have hholds : Holds 0 s.mem (cmdlineBuf + w.length) (e.line s.echoChar) := by
    have htext' := h.text
    rw [htext] at htext'
    exact htext'.drop
  have hlen : s.llen - w.length = (e.line s.echoChar).length := by
    rw [h.llen, congrArg List.length htext, List.length_append]
    omega
  have hstored :
      Holds 0 (Memory.store s.cmdline 0 (Memory.slice s.mem (cmdlineBuf + w.length) (s.llen - w.length + 1))) 0 (e.line s.echoChar) := by
    rw [hlen, hholds.cells]
    exact StringPool.holds_store _ _ hholds.chars
  have hin : w.length < s.llen ↔ e.line s.echoChar ≠ [] := by
    rw [← List.length_pos_iff]
    omega
  have hbuffers : Buffers { s with
      lpos := w.length, cmdline := Memory.store s.cmdline 0 (Memory.slice s.mem (cmdlineBuf + w.length) (s.llen - w.length + 1)) } e :=
    ⟨h.kill, h.killFits, h.numHistory, h.historyFits, h.lines⟩
  rw [finish_eq h.clear, Editor.enter]
  dsimp only
  rw [← hw]
  by_cases hkept : s.readline = true ∧ w.length < s.llen
  · rw [if_pos hkept, if_pos ⟨hkept.1, hin.1 hkept.2⟩]
    refine ⟨?_, hstored⟩
    rw [str_eq hstored hfits]
    exact hbuffers.addHistory h.clear hholds.chars hfits (Nat.zero_le _) (by decide)
  · rw [if_neg hkept, if_neg fun hnot => hkept ⟨hnot.1, hin.2 hnot.2⟩]
    exact ⟨hbuffers, hstored⟩

/-! ### Outcomes -/

/-- The outcome is that of the editor. -/
inductive Agrees (s₀ : State) : Outcome → Editor.Outcome → Prop where
  | editing {s : State} {e : Editor} (step : Step s₀ s e) : Agrees s₀ (.editing s) (.editing e)
  | entered {s : State} {line : List Byte} {e : Editor} (buffers : Buffers s e) (holds : Holds 0 s.cmdline 0 line) :
      Agrees s₀ (.returned 0 s) (.entered line e)
  | aborted {s : State} {e : Editor} (buffers : Buffers s e) : Agrees s₀ (.returned 1 s) (.aborted e)

theorem toNat_lt_ne_zero {c : Byte} (h : 0x20 ≤ c.toNat) : c ≠ 0 := by
  rintro rfl
  exact absurd h (by decide)

/-- C-d and C-h are no readline-like keys. -/
theorem readlineKey_none {k : Key} (hc : k.c.toNat = 4 ∨ k.c.toNat = 8) (max : Int) : s.readlineKey k = s ∧ e.readlineKey max k = e := by
  unfold State.readlineKey Editor.readlineKey
  obtain hc | hc := hc
  · rw [hc]
    exact ⟨rfl, rfl⟩
  · rw [hc]
    exact ⟨rfl, rfl⟩

/-- **A key.** -/
theorem Shows.key (h : Shows s e) {k : Key} (hcompletions : Completing k.completions) (hsound : Sound e s.maxlen s.readline k) :
    Agrees s (s.key k) (e.key s.maxlen s.echoChar s.readline k) := by
  unfold State.key Editor.key
  split
  · obtain ⟨hbuffers, hline⟩ := h.finish
    exact .entered hbuffers hline
  next hend =>
    have hstep : Step s (if s.readline then s.readlineKey k else s) (if s.readline then e.readlineKey s.maxlen k else e) := by
      cases hreadline : s.readline with
      | false => exact .refl h
      | true =>
        rw [hreadline] at hsound
        exact h.readlineKey hcompletions hsound
    have hother (hc : k.c.toNat = 4 ∨ k.c.toNat = 8) : (if s.readline then s.readlineKey k else s) = s ∧
        (if s.readline then e.readlineKey s.maxlen k else e) = e := by
      obtain ⟨hs, he⟩ := readlineKey_none (s := s) (e := e) hc s.maxlen
      rw [hs, he]
      exact ⟨ite_self s, ite_self e⟩
    dsimp only
    generalize hs₁ : (if s.readline then s.readlineKey k else s) = s₁ at *
    generalize he₁ : (if s.readline then e.readlineKey s.maxlen k else e) = e₁ at *
    generalize hc : k.c.toNat = c at *
    have hlpos := hstep.shows.lpos
    have hllen := hstep.shows.llen
    have hcursor := hstep.shows.cursor
    split
    next => exact .aborted hstep.shows.toBuffers
    next =>
      obtain ⟨rfl, rfl⟩ := hother (.inl rfl)
      rw [hlpos, hllen]
      refine .editing ?_
      split
      next => exact hstep
      next hend =>
        have hlt : e₁.cursor < e₁.text.length := by omega
        have hmoved := hsound.delete hc hlt
        exact h.delete hlt (Nat.lt_succ_of_le hmoved)
    next =>
      obtain ⟨rfl, rfl⟩ := hother (.inr rfl)
      rw [hlpos]
      show Agrees s₁ _ (.editing (if 0 < e₁.cursor then (e₁.backward 1).delete 1 else e₁))
      refine .editing ?_
      split
      next hpos =>
        have hmoved := hsound.backspace hc hpos
        have hback := h.backward 1
        refine hback.then (hback.shows.delete ?_ ?_)
        · show e₁.cursor - 1 + 1 ≤ e₁.text.length
          omega
        · show e₁.cursor - 1 + e₁.text.length < maxCmdline + 1
          omega
      next => exact hstep
    next =>
      have hprintable : Agrees s (.editing (if 0x20 ≤ c ∧ c ≤ 0x7E then s₁.clInsert [k.c] else s₁))
          (.editing (if 0x20 ≤ c ∧ c ≤ 0x7E then e₁.insert s.maxlen [k.c] else e₁)) := by
        refine .editing ?_
        split
        next hin =>
          have hchar : k.c ≠ 0 := toNat_lt_ne_zero (hc ▸ hin.1)
          have hinsert := hstep.shows.insert (t := [k.c]) fun hzero => hchar (List.mem_singleton.1 hzero).symm
          rw [hstep.call.maxlen] at hinsert
          exact hstep.then hinsert
        next => exact hstep
      generalize (if 0x20 ≤ c ∧ c ≤ 0x7E then s₁.clInsert [k.c] else s₁) = s₂ at hprintable ⊢
      generalize he₂ : (if 0x20 ≤ c ∧ c ≤ 0x7E then e₁.insert s.maxlen [k.c] else e₁) = e₂ at hprintable ⊢
      try split
      all_goals first
        | contradiction
        | exact hprintable
        | exact he₂ ▸ hprintable

/-! ## Runs -/

/-- The keys meet the condition, each in the state that it is pressed in. -/
def SoundKeys (max : Int) (echoChar : Byte) (readline : Bool) : Editor → List Key → Prop
  | _, [] => True
  | e, k :: ks => Sound e max readline k ∧ ∀ e', e.key max echoChar readline k = .editing e' → SoundKeys max echoChar readline e' ks

theorem Shows.keys (ks : List Key) (hcompletions : ∀ k ∈ ks, Completing k.completions) : ∀ {s : State} {e : Editor}, Shows s e →
    SoundKeys s.maxlen s.echoChar s.readline e ks → Agrees s (s.keys ks) (e.keys s.maxlen s.echoChar s.readline ks) := by
  induction ks with
  | nil => exact fun h _ => .editing (.refl h)
  | cons k ks ih =>
    intro s e h hsound
    have hkey := h.key (hcompletions k List.mem_cons_self) hsound.1
    rw [State.keys, Editor.keys]
    generalize ho : s.key k = o at hkey ⊢
    generalize ho' : e.key s.maxlen s.echoChar s.readline k = o' at hkey ⊢
    cases hkey with
    | editing hstep =>
      have hrest := hsound.2 _ ho'
      rw [← hstep.call.maxlen, ← hstep.call.echoChar, ← hstep.call.readline] at hrest
      have hall := ih (fun k hk => hcompletions k (List.mem_cons_of_mem _ hk)) hstep.shows hrest
      rw [hstep.call.maxlen, hstep.call.echoChar, hstep.call.readline] at hall
      dsimp only
      generalize ho₁ : State.keys _ ks = o₁ at hall ⊢
      generalize ho₁' : Editor.keys _ s.maxlen s.echoChar s.readline ks = o₁' at hall ⊢
      cases hall with
      | editing hlast => exact .editing (hstep.then hlast)
      | entered hbuffers hline => exact .entered hbuffers hline
      | aborted hbuffers => exact .aborted hbuffers
    | entered hbuffers hline => exact .entered hbuffers hline
    | aborted hbuffers => exact .aborted hbuffers

/-! ### The start -/

/-- The memory holds a kill buffer and a history. -/
structure Remembers (mem : Nat → Byte) (kill : List Byte) (history : List (List Byte)) : Prop where
  killed : Holds 0 mem killBuf kill
  killFits : kill.length < maxCmdline
  historyFits : history.length ≤ historySize
  lines : ∀ i line, history[i]? = some line → Holds 0 mem (historyBuf + maxCmdline * i) line ∧ line.length < maxCmdline

/-- The editor before the first key. -/
def Editor.start (line kill : List Byte) (history : List (List Byte)) : Editor :=
  { text := line, cursor := line.length, kill, history, place := none, saved := [] }

variable {mem cmdline : Nat → Byte} {line kill prompt : List Byte} {history : List (List Byte)} {maxlen : Int} {echoChar : Byte}
    {readline : Bool}

theorem start_eq_pending (pending : Bool) (hline : Holds 0 cmdline 0 line) (hfits : line.length < maxCmdline) :
    start prompt cmdline maxlen echoChar readline pending mem n =
      ({ pending, mem := if pending then mem else Memory.store mem cmdlineBuf (line ++ [0]), cmdline, numHistory := n,
         maxlen := min maxlen maxCmdline,
         echoChar, readline, plen := prompt.length, llen := line.length, lpos := line.length, history := -1, xpos := 0, sectionNo := 0 } :
           State).clInit := by
  have hlong : ¬ ((maxCmdline : Int) < maxlen ∧ maxCmdline ≤ line.length) := fun hin => absurd hfits (Nat.not_lt.2 hin.2)
  unfold start
  dsimp only
  rw [str_eq hline hfits, if_neg hlong, if_neg hlong, str_eq hline hfits]

theorem start_eq (hline : Holds 0 cmdline 0 line) (hfits : line.length < maxCmdline) :
    start prompt cmdline maxlen echoChar readline false mem n =
      ({ pending := false, mem := Memory.store mem cmdlineBuf (line ++ [0]), cmdline, numHistory := n, maxlen := min maxlen maxCmdline,
         echoChar, readline,
         plen := prompt.length, llen := line.length, lpos := line.length, history := -1, xpos := 0, sectionNo := 0 } : State).clInit :=
  start_eq_pending false hline hfits

theorem start_shows (hline : Holds 0 cmdline 0 line) (hfits : line.length < maxCmdline) (hmem : Remembers mem kill history)
    (prompt : List Byte) (maxlen : Int)
    (echoChar : Byte) (readline : Bool) :
    Shows (start prompt cmdline maxlen echoChar readline false mem history.length) (Editor.start line kill history) := by
  have hlen : cmdlineBuf + (line ++ [(0 : Byte)]).length ≤ killBuf := by
    rw [List.length_append, List.length_singleton]
    show 0 + (line.length + 1) ≤ 0 + maxCmdline
    omega
  rw [start_eq hline hfits]
  refine Shows.screen ?_ (clRefresh_screen _ true)
  have htext : Holds 0 (Memory.store mem cmdlineBuf (line ++ [0])) cmdlineBuf line := StringPool.holds_store _ _ hline.chars
  refine ⟨⟨hmem.killed.outside (.inl hlen), hmem.killFits, rfl, hmem.historyFits, fun i l hl => ?_⟩, rfl, htext, hfits, rfl, rfl,
    Nat.le_refl _, min_le_right _ _, rfl, fun i hi => nomatch hi⟩
  obtain ⟨hholds, hl'⟩ := hmem.lines i l hl
  refine ⟨hholds.outside (.inl (hlen.trans ?_)), hl'⟩
  show killBuf ≤ killBuf + maxCmdline + maxCmdline * i
  omega

/-- A line in a memory that is zero elsewhere. -/
def cells (line : List Byte) : Nat → Byte := Memory.store (fun _ => 0) 0 (line ++ [0])

theorem remembers_nothing : Remembers (fun _ => 0) [] [] :=
  ⟨StringPool.holds_nil rfl, by decide, Nat.zero_le _, fun _ _ hline => nomatch hline⟩

/-- Only `ro` can be completed, to `root` with a space. -/
def rootOnly : Completions := fun _ w => if w = [0x72, 0x6F] then ⟨0, [0x72, 0x6F, 0x6F, 0x74, 0x20]⟩ else ⟨-1, []⟩

def press (c : Byte) : Key := ⟨c, rootOnly⟩

end TrustedGrub.Line
