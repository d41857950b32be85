import Mathlib.Data.List.TakeWhile
import TrustedGrub.Line.Input

/-!
# What is stored from `cmdline` on

The editor keeps a line shorter than `maxlen` as long as the history holds no longer one. Memory that is moved when characters
are taken out may reach the kill buffer, but never the history.
-/

namespace TrustedGrub.Line
open Fips180 (Byte)
open StringPool (Holds)

variable {s s' : State} {t t' u : List Byte} {n : Nat} {max : Int} {echo : Byte} {before : Nat → Byte}

theorem read_chars (m : Nat → Byte) (n p : Nat) : (0 : Byte) ∉ StringPool.read 0 m n p := by
  induction n generalizing p with
  | zero => exact List.not_mem_nil
  | succ n ih =>
    rw [StringPool.read]
    split
    · exact List.not_mem_nil
    · next hc => exact fun hin => (List.mem_cons.1 hin).elim (fun hz => hc hz.symm) (ih (p + 1))

theorem str_chars (m : Nat → Byte) (p : Nat) : (0 : Byte) ∉ str m p := read_chars m addressSpace p

/-! ## Lines that are entered -/

theorem entered_length_le (t : List Byte) : (entered echo t).length ≤ t.length := by
  unfold entered
  split
  · exact (List.dropWhile_suffix _).length_le
  · exact Nat.le_refl _

theorem dropWhile_length_le (p : Byte → Bool) (h : List.Sublist t' t) : (t'.dropWhile p).length ≤ (t.dropWhile p).length := by
  induction h with
  | slnil => exact Nat.le_refl _
  | @cons l₁ l₂ c h ih =>
    rw [List.dropWhile_cons]
    split
    · exact ih
    · exact ((List.dropWhile_suffix _).length_le.trans h.length_le).trans (Nat.le_succ _)
  | @cons_cons l₁ l₂ c h ih =>
    rw [List.dropWhile_cons, List.dropWhile_cons]
    split
    · exact ih
    · exact Nat.succ_le_succ h.length_le

/-- Characters that are taken out do not make it longer. -/
theorem entered_sublist (h : List.Sublist t' t) : (entered echo t').length ≤ (entered echo t).length := by
  unfold entered
  split
  · exact dropWhile_length_le _ h
  · exact h.length_le

/-! ## The line in the buffer -/

/-- The buffer holds the line. -/
structure Lies (s : State) (t : List Byte) : Prop where
  clear : s.pending = false
  text : Holds 0 s.mem cmdlineBuf t
  fits : t.length < maxCmdline
  llen : s.llen = t.length
  lpos : s.lpos ≤ t.length
  maxlen : s.maxlen ≤ maxCmdline

/-- Only the line, what is behind it and the kill buffer may be different. -/
structure Edits (s s' : State) : Prop where
  mem : ∀ x, historyBuf ≤ x → x < completionBuf → s'.mem x = s.mem x
  cmdline : s'.cmdline = s.cmdline
  numHistory : s'.numHistory = s.numHistory
  maxlen : s'.maxlen = s.maxlen
  echoChar : s'.echoChar = s.echoChar
  readline : s'.readline = s.readline
  history : s'.history = s.history

theorem Lies.buf (h : Lies s t) : s.buf = t := str_eq h.text h.fits

theorem Edits.refl (s : State) : Edits s s := ⟨fun _ _ _ => rfl, rfl, rfl, rfl, rfl, rfl, rfl⟩

theorem Edits.trans {s₁ : State} (h : Edits s s₁) (h' : Edits s₁ s') : Edits s s' where
  mem x hlo hhi := (h'.mem x hlo hhi).trans (h.mem x hlo hhi)
  cmdline := h'.cmdline.trans h.cmdline
  numHistory := h'.numHistory.trans h.numHistory
  maxlen := h'.maxlen.trans h.maxlen
  echoChar := h'.echoChar.trans h.echoChar
  readline := h'.readline.trans h.readline
  history := h'.history.trans h.history

theorem OnScreen.edits (h : OnScreen s s') : Edits s s' :=
  ⟨fun x _ _ => congrFun h.mem x, h.cmdline, h.numHistory, h.maxlen, h.echoChar, h.readline, h.history⟩

theorem Lies.screen (h : Lies s t) (hscreen : OnScreen s s') : Lies s' t where
  clear := hscreen.pending.trans h.clear
  text := by
    rw [hscreen.mem]
    exact h.text
  fits := h.fits
  llen := hscreen.llen.trans h.llen
  lpos := hscreen.lpos.le.trans h.lpos
  maxlen := hscreen.maxlen.le.trans h.maxlen

/-- An edit: the line loses characters, or is shorter than `maxlen`. -/
structure Edited (s : State) (t : List Byte) (s' : State) (t' : List Byte) : Prop where
  lies : Lies s' t'
  edits : Edits s s'
  short : List.Sublist t' t ∨ (t'.length : Int) < s.maxlen

theorem Edited.refl (h : Lies s t) : Edited s t s t := ⟨h, .refl s, .inl (.refl t)⟩

theorem Edited.trans {s₁ : State} {t₁ : List Byte} (h : Edited s t s₁ t₁) (h' : Edited s₁ t₁ s' t') : Edited s t s' t' where
  lies := h'.lies
  edits := h.edits.trans h'.edits
  short := by
    obtain hsub | hlt := h'.short
    · exact h.short.imp hsub.trans fun hlt => Int.lt_of_le_of_lt (Int.ofNat_le.2 hsub.length_le) hlt
    · exact .inr (h.edits.maxlen ▸ hlt)

/-! ### Cursor and characters -/

theorem Lies.backward (h : Lies s t) (n : Nat) : Edited s t (s.clBackward n) t := by
  have hscreen := clBackward_screen s n
  have hlies : Lies { s with lpos := s.lpos - n } t := ⟨h.clear, h.text, h.fits, h.llen, (Nat.sub_le _ _).trans h.lpos, h.maxlen⟩
  have hedits : Edits s { s with lpos := s.lpos - n } := ⟨fun _ _ _ => rfl, rfl, rfl, rfl, rfl, rfl, rfl⟩
  exact ⟨hlies.screen hscreen, hedits.trans hscreen.edits, .inl (.refl t)⟩

theorem Lies.forward (h : Lies s t) (hn : s.lpos + n ≤ t.length) : Edited s t (s.clForward n) t := by
  have hscreen := clForward_screen s n
  have hlies : Lies { s with lpos := s.lpos + n } t := ⟨h.clear, h.text, h.fits, h.llen, hn, h.maxlen⟩
  have hedits : Edits s { s with lpos := s.lpos + n } := ⟨fun _ _ _ => rfl, rfl, rfl, rfl, rfl, rfl, rfl⟩
  exact ⟨hlies.screen hscreen, hedits.trans hscreen.edits, .inl (.refl t)⟩

/-- The memory behind the buffer is none of the line's business. -/
theorem Lies.memory (h : Lies s t) {m : Nat → Byte} (hm : ∀ x, x < killBuf → m x = s.mem x) : Lies { s with mem := m } t := by
  have hfits := h.fits
  refine ⟨h.clear, h.text.congr fun x _ hhi => hm x ?_, h.fits, h.llen, h.lpos, h.maxlen⟩
  have hkill : killBuf = cmdlineBuf + maxCmdline := rfl
  omega

theorem Lies.parts (h : Lies s t) : Holds 0 s.mem cmdlineBuf (t.take s.lpos ++ t.drop s.lpos) := by
  rw [List.take_append_drop]
  exact h.text

theorem Lies.take_length (h : Lies s t) : (t.take s.lpos).length = s.lpos := List.length_take_of_le h.lpos

theorem Lies.insertedMem (h : Lies s t) (hu : (0 : Byte) ∉ u) (hroom : t.length + u.length < maxCmdline) :
    (∀ x, maxCmdline ≤ x → Line.insertedMem s u x = s.mem x) ∧
      Holds 0 (Line.insertedMem s u) cmdlineBuf (t.take s.lpos ++ (u ++ t.drop s.lpos)) := by
  have hlpos := h.lpos
  have hzero : cmdlineBuf = 0 := rfl
  unfold Line.insertedMem
  rw [h.llen]
  split
  next hend =>
    refine ⟨fun x hx => Memory.store_of_ge ?_, ?_⟩
    · rw [List.length_append, List.length_singleton]
      omega
    · rw [hend, List.take_length, List.drop_length, List.append_nil]
      exact h.text.extend hu
  next hinside =>
    refine ⟨fun x hx => ?_, ?_⟩
    · rw [Memory.store_of_ge (by omega)]
      apply Memory.store_of_ge
      rw [Memory.slice_length]
      omega
    · have hinserted := h.parts.insert hu
      rwa [h.take_length, List.length_drop] at hinserted

/-- Characters are put in, and then the line is shorter than `maxlen`. -/
structure Grown (s : State) (t : List Byte) (s' : State) (t' : List Byte) : Prop where
  lies : Lies s' t'
  edits : Edits s s'
  room : t' = t ∨ t.length ≤ t'.length ∧ (t'.length : Int) < s.maxlen

theorem Grown.edited (h : Grown s t s' t') : Edited s t s' t' := by
  refine ⟨h.lies, h.edits, ?_⟩
  obtain rfl | hroom := h.room
  · exact .inl (.refl t')
  · exact .inr hroom.2

/-- **`cl_insert`.** -/
theorem Lies.insert (h : Lies s t) (hu : (0 : Byte) ∉ u) : ∃ t', Grown s t (s.clInsert u) t' := by
  rw [clInsert_eq h.clear, h.llen]
  split
  next hroom =>
    have hmax := h.maxlen
    have hlpos := h.lpos
    have hlen : (t.take s.lpos ++ (u ++ t.drop s.lpos)).length = t.length + u.length := by
      rw [List.length_append, List.length_append, List.length_drop, h.take_length]
      omega
    have hbound : t.length + u.length < maxCmdline := by omega
    obtain ⟨hsame, hholds⟩ := h.insertedMem hu hbound
    have hlies : Lies { s with mem := Line.insertedMem s u, llen := t.length + u.length, lpos := s.lpos + u.length }
        (t.take s.lpos ++ (u ++ t.drop s.lpos)) := by
      refine ⟨h.clear, hholds, hlen ▸ hbound, hlen.symm, ?_, h.maxlen⟩
      rw [hlen]
      exact Nat.add_le_add_right hlpos _
    have hedits : Edits s { s with mem := Line.insertedMem s u, llen := t.length + u.length, lpos := s.lpos + u.length } :=
      ⟨fun x hlo _ => hsame x ((by decide : maxCmdline ≤ historyBuf).trans hlo), rfl, rfl, rfl, rfl, rfl, rfl⟩
    refine ⟨_, hlies.screen (clRefresh_screen _ _), hedits.trans (clRefresh_screen _ _).edits, .inr ?_⟩
    rw [hlen]
    exact ⟨Nat.le_add_right _ _, hroom⟩
  next => exact ⟨t, h, .refl s, .inl rfl⟩

/-- **`cl_delete`.** What is moved ends before the history. -/
theorem Lies.delete (h : Lies s t) (hn : s.lpos + n ≤ t.length) : Edited s t (s.clDelete n) (t.take s.lpos ++ t.drop (s.lpos + n)) := by
  have hfits := h.fits
  have htext : t = t.take s.lpos ++ ((t.drop s.lpos).take n ++ t.drop (s.lpos + n)) := by
    rw [← List.drop_drop, List.take_append_drop, List.take_append_drop]
  have hholds := h.text
  rw [htext] at hholds
  have hcount : ((t.drop s.lpos).take n).length = n := by
    rw [List.length_take_of_le]
    rw [List.length_drop]
    omega
  have hdeleted := hholds.delete (n := t.length - n + 1) (by rw [List.length_drop]; omega)
  rw [h.take_length, hcount] at hdeleted
  have hlen : (t.take s.lpos ++ t.drop (s.lpos + n)).length = t.length - n := by
    rw [List.length_append, List.length_drop, h.take_length]
    omega
  have hsub : List.Sublist (t.take s.lpos ++ t.drop (s.lpos + n)) t := by
    conv_rhs => rw [← List.take_append_drop s.lpos t, ← List.take_append_drop n (t.drop s.lpos), List.drop_drop]
    exact (List.Sublist.refl _).append (List.sublist_append_right _ _)
  have hlies :
      Lies { s with mem := StringPool.move s.mem (cmdlineBuf + s.lpos) (cmdlineBuf + s.lpos + n) (s.llen - n + 1), llen := s.llen - n }
      (t.take s.lpos ++ t.drop (s.lpos + n)) := by
    refine ⟨h.clear, ?_, ?_, ?_, ?_, h.maxlen⟩
    · rw [h.llen]
      exact hdeleted
    · rw [hlen]
      omega
    · rw [hlen, ← h.llen]
    · rw [hlen]
      show s.lpos ≤ _
      omega
  have hedits :
      Edits s { s with mem := StringPool.move s.mem (cmdlineBuf + s.lpos) (cmdlineBuf + s.lpos + n) (s.llen - n + 1),
                       llen := s.llen - n } := by
    refine ⟨fun x hlo _ => Memory.store_of_ge ?_, rfl, rfl, rfl, rfl, rfl, rfl⟩
    have hhistory := historyBuf_eq
    rw [Memory.slice_length, h.llen]
    omega
  rw [clDelete_eq h.clear]
  exact ⟨hlies.screen (clRefresh_screen _ false), hedits.trans (clRefresh_screen _ false).edits, .inl hsub⟩

/-! ### The kill buffer -/

/-- The kill buffer is filled. -/
theorem Lies.killed (h : Lies s t) {m : Nat → Byte} (hm : ∀ x, x < killBuf ∨ historyBuf ≤ x → m x = s.mem x) :
    Edited s t { s with mem := m } t :=
  ⟨h.memory fun x hx => hm x (.inl hx), ⟨fun x hlo _ => hm x (.inr hlo), rfl, rfl, rfl, rfl, rfl, rfl⟩, .inl (.refl t)⟩

theorem Lies.killBackward (h : Lies s t) : ∃ t', Edited s t s.killBackward t' := by
  have hfits := h.fits
  have hlpos := h.lpos
  have hhistory : historyBuf = killBuf + maxCmdline := rfl
  rw [killBackward_eq h.clear]
  split
  next => exact ⟨t, .refl h⟩
  next hin =>
    have hkilled := h.killed (m := Memory.store (StringPool.move s.mem killBuf cmdlineBuf s.lpos) (killBuf + s.lpos) [0]) fun x hx => by
      obtain hx | hx := hx
      · rw [Memory.store_of_lt (by omega)]
        exact Memory.store_of_lt hx
      · rw [Memory.store_of_ge (by rw [List.length_singleton]; omega)]
        apply Memory.store_of_ge
        rw [Memory.slice_length]
        omega
    have hback := hkilled.trans (hkilled.lies.backward s.lpos)
    have hstart :
        (({ s with mem := Memory.store (StringPool.move s.mem killBuf cmdlineBuf s.lpos) (killBuf + s.lpos) [0] } : State).clBackward
        s.lpos).lpos = 0 := by
      rw [(clBackward_screen _ s.lpos).lpos]
      exact Nat.sub_self _
    exact ⟨_, hback.trans (hback.lies.delete (n := s.lpos) (by omega))⟩

theorem Lies.killForward (h : Lies s t) : ∃ t', Edited s t s.killForward t' := by
  have hfits := h.fits
  have hlpos := h.lpos
  have hhistory : historyBuf = killBuf + maxCmdline := rfl
  rw [killForward_eq h.clear]
  split
  next => exact ⟨t, .refl h⟩
  next hin =>
    have hkilled := h.killed (m := StringPool.move s.mem killBuf (cmdlineBuf + s.lpos) (s.llen - s.lpos + 1)) fun x hx => by
      obtain hx | hx := hx
      · exact Memory.store_of_lt hx
      · apply Memory.store_of_ge
        rw [Memory.slice_length, h.llen]
        omega
    refine ⟨_, hkilled.trans (hkilled.lies.delete (n := s.llen - s.lpos) ?_)⟩
    show s.lpos + _ ≤ _
    rw [h.llen]
    omega

/-! ### Completion -/

/-- The completion buffer changes. -/
theorem Lies.scratch (h : Lies s t) {m : Nat → Byte} (hm : ∀ x, x < completionBuf → m x = s.mem x) :
    Lies { s with mem := m } t ∧ Edits s { s with mem := m } :=
  ⟨h.memory fun x hx => hm x (Nat.lt_of_lt_of_le hx (by decide)), ⟨fun x _ hhi => hm x hhi, rfl, rfl, rfl, rfl, rfl, rfl⟩⟩

theorem Lies.putEqual (h : Lies s t) {i : Nat} (hi : i < t.length) {c : Byte} (hc : c ≠ 0) :
    Lies (s.putEqual (some i) c) (t.set i c) ∧ Edits s (s.putEqual (some i) c) := by
  have hfits := h.fits
  have hhistory := historyBuf_eq
  refine ⟨⟨h.clear, h.text.set hi hc, ?_, ?_, ?_, h.maxlen⟩, ⟨fun x hlo _ => Memory.store_of_ge ?_, rfl, rfl, rfl, rfl, rfl, rfl⟩⟩
  · rw [List.length_set]
    exact h.fits
  · rw [List.length_set]
    exact h.llen
  · rw [List.length_set]
    exact h.lpos
  · rw [List.length_singleton]
    omega

theorem Lies.copyWord (h : Lies s t) (i : Nat) : Lies (s.copyWord i) t ∧ Edits s (s.copyWord i) := by
  refine h.scratch fun x hx => ?_
  rw [moved_clear h.clear, Memory.store_of_lt (Nat.lt_of_lt_of_le hx (Nat.le_add_right _ _))]
  exact Memory.store_of_lt hx

theorem Lies.putCompletion (h : Lies s t) (i : Nat) (c : Completion) : ∃ t', Grown s t (s.putCompletion i c) t' := by
  obtain ⟨hlies, hedits⟩ := h.scratch (m := Memory.store s.mem completionBuf (c.buffer ++ [0])) fun x hx => Memory.store_of_lt hx
  unfold State.putCompletion
  dsimp only
  split
  next =>
    obtain ⟨t', hgrown⟩ := hlies.insert (str_chars (Memory.store s.mem completionBuf (c.buffer ++ [0])) (completionBuf + (s.lpos - i)))
    exact ⟨t', hgrown.lies, hedits.trans hgrown.edits, hgrown.room⟩
  next => exact ⟨t, hlies, hedits, .inl rfl⟩

/-- **TAB** -/
theorem Lies.complete (h : Lies s t) (completions : Completions) : ∃ t', Edited s t (s.complete completions) t' := by
  rw [complete_eq h.clear, h.buf]
  dsimp only
  have hput (i : Nat) (c : Completion) :
      ∃ t', Edited s t ((((s.putEqual (equalPos t (commandEnd t)) 0x20).copyWord i).putCompletion i c).putEqual (equalPos t (commandEnd t))
        0x3D) t' := by
    cases hequal : equalPos t (commandEnd t) with
    | none =>
      obtain ⟨hcopied, hedits⟩ := h.copyWord i
      obtain ⟨t', hgrown⟩ := hcopied.putCompletion i c
      exact ⟨t', hgrown.lies, hedits.trans hgrown.edits, hedits.maxlen ▸ hgrown.edited.short⟩
    | some j =>
      obtain ⟨hj, hc⟩ := List.getElem?_eq_some_iff.1 (equalPos_spec hequal)
      obtain ⟨hblanked, hedits⟩ := h.putEqual hj (c := 0x20) (by decide)
      obtain ⟨hcopied, hedits'⟩ := hblanked.copyWord i
      obtain ⟨t', hgrown⟩ := hcopied.putCompletion i c
      have hbefore := (hedits.trans hedits').trans hgrown.edits
      -- the equal character is put back where it was, also if the line has grown
      have hlen : t.length ≤ t'.length := by
        obtain rfl | ⟨hle, -⟩ := hgrown.room
        · rw [List.length_set]
        · rwa [List.length_set] at hle
      obtain ⟨hback, hedits''⟩ := hgrown.lies.putEqual (Nat.lt_of_lt_of_le hj hlen) (c := 0x3D) (by decide)
      refine ⟨_, hback, hbefore.trans hedits'', ?_⟩
      obtain rfl | ⟨-, hlt⟩ := hgrown.room
      · rw [List.set_set, ← hc, List.set_getElem_self]
        exact .inl (.refl t)
      · rw [List.length_set]
        exact .inr ((hedits.trans hedits').maxlen ▸ hlt)
  split
  next =>
    obtain ⟨t', hedited⟩ :=
      hput (wordStart (s.putEqual (equalPos t (commandEnd t)) 0x20).mem (s.putEqual (equalPos t (commandEnd t)) 0x20).lpos) _
    exact ⟨t', hedited.lies.screen (clRefresh_screen _ true), hedited.edits.trans (clRefresh_screen _ true).edits, hedited.short⟩
  next => exact hput _ _

/-! ## The history -/

/-- A line that may be entered. -/
structure Enterable (max : Int) (echo : Byte) (l : List Byte) : Prop where
  chars : (0 : Byte) ∉ l
  fits : l.length < maxCmdline
  short : ((entered echo l).length : Int) < max

/-- The history holds lines that may be entered, and `cmdline` does while one of them is in the buffer. -/
structure Kept (before : Nat → Byte) (max : Int) (echo : Byte) (s : State) : Prop where
  limit : s.maxlen = min max maxCmdline
  echoChar : s.echoChar = echo
  numHistory : s.numHistory ≤ historySize
  lines : s.readline = true → ∀ i < s.numHistory, ∃ l, Holds 0 s.mem (historyBuf + maxCmdline * i) l ∧ Enterable max echo l
  place : -1 ≤ s.history ∧ s.history < s.numHistory
  saved : 0 ≤ s.history → ∃ l, Holds 0 s.cmdline 0 l ∧ (l.length : Int) < min max maxCmdline
  outside : ∀ x : Nat, max ≤ x → s.cmdline x = before x

/-- The line in the buffer may be entered, and is shorter than `maxlen` if it is not from the history. -/
structure Bounded (before : Nat → Byte) (max : Int) (echo : Byte) (s : State)
    (t : List Byte) : Prop extends Kept before max echo s, Lies s t where
  short : ((entered echo t).length : Int) < max
  working : s.history < 0 → (t.length : Int) < max

theorem Kept.edits (h : Kept before max echo s) (hedits : Edits s s') : Kept before max echo s' where
  limit := hedits.maxlen.trans h.limit
  echoChar := hedits.echoChar.trans h.echoChar
  numHistory := hedits.numHistory.le.trans h.numHistory
  lines hreadline i hi := by
    rw [hedits.numHistory] at hi
    obtain ⟨l, hholds, hline⟩ := h.lines (hedits.readline.symm.trans hreadline) i hi
    have hfits := hline.fits
    have hnum := h.numHistory
    have hslot : maxCmdline * (i + 1) ≤ maxCmdline * historySize := Nat.mul_le_mul_left _ (by omega)
    have hcompletion : completionBuf = historyBuf + maxCmdline * historySize := rfl
    rw [Nat.mul_succ] at hslot
    exact ⟨l, hholds.congr fun x hlo hhi => hedits.mem x (by omega) (by omega), hline⟩
  place := by
    rw [hedits.history, hedits.numHistory]
    exact h.place
  saved := by
    rw [hedits.history, hedits.cmdline]
    exact h.saved
  outside := by
    rw [hedits.cmdline]
    exact h.outside

/-- **Edits** keep it so. -/
theorem Bounded.edited (h : Bounded before max echo s t) (hedited : Edited s t s' t') : Bounded before max echo s' t' where
  toKept := h.toKept.edits hedited.edits
  toLies := hedited.lies
  short := by
    obtain hsub | hlt := hedited.short
    · exact Int.lt_of_le_of_lt (Int.ofNat_le.2 (entered_sublist hsub)) h.short
    · have hle := @entered_length_le echo t'
      have hmax := h.limit
      omega
  working := by
    rw [hedited.edits.history]
    intro hhistory
    obtain hsub | hlt := hedited.short
    · exact Int.lt_of_le_of_lt (Int.ofNat_le.2 hsub.length_le) (h.working hhistory)
    · have hmax := h.limit
      omega

theorem Bounded.enterable (h : Bounded before max echo s t) : Enterable max echo t := ⟨h.text.chars, h.fits, h.short⟩

theorem Kept.getHistory (h : Kept before max echo s) (hreadline : s.readline = true) {no : Int} {l : List Byte}
    (hl : s.getHistory no = some l) :
    Enterable max echo l ∧ 0 ≤ no ∧ no < s.numHistory := by
  unfold State.getHistory at hl
  split at hl
  next => exact nomatch hl
  next hin =>
    obtain ⟨hlo, hhi⟩ : 0 ≤ no ∧ no < s.numHistory := by omega
    obtain ⟨l', hholds, hline⟩ := h.lines hreadline no.toNat (by omega)
    rw [str_eq hholds hline.fits] at hl
    exact ⟨Option.some.inj hl ▸ hline, hlo, hhi⟩

/-- **`add_history`** -/
theorem Kept.addHistory (h : Kept before max echo s) (hclear : s.pending = false) {line : List Byte} (hline : Enterable max echo line)
    {no : Nat} (hno : no ≤ s.numHistory) :
    Kept before max echo (s.addHistory line no) where
  limit := h.limit
  echoChar := h.echoChar
  numHistory := by
    have hnum := h.numHistory
    show (if s.numHistory < historySize then s.numHistory + 1 else s.numHistory) ≤ historySize
    split <;> omega
  lines hreadline i hi := by
    have hnum : (if s.numHistory < historySize then s.numHistory + 1 else s.numHistory) ≤ s.numHistory + 1 := by
      split <;> omega
    have hi' : i < s.numHistory + 1 := Nat.lt_of_lt_of_le hi hnum
    obtain hlt | rfl | hgt := Nat.lt_trichotomy i no
    · obtain ⟨l, hholds, hl⟩ := h.lines hreadline i (Nat.lt_of_lt_of_le hlt hno)
      exact ⟨l, addHistory_before hclear hholds hl.fits hlt, hl⟩
    · exact ⟨line, addHistory_at hclear hline.chars, hline⟩
    · obtain ⟨i, rfl⟩ : ∃ j, i = j + 1 := ⟨i - 1, by omega⟩
      obtain ⟨l, hholds, hl⟩ := h.lines hreadline i (Nat.lt_of_succ_lt_succ hi')
      exact ⟨l, addHistory_behind hclear hholds hl.fits hline.fits (Nat.le_of_lt_succ hgt) (Nat.lt_of_succ_lt_succ hi'), hl⟩
  place := by
    have hplace := h.place
    show -1 ≤ s.history ∧ s.history < ((if s.numHistory < historySize then s.numHistory + 1 else s.numHistory : Nat) : Int)
    split <;> omega
  saved := h.saved
  outside := h.outside

theorem Bounded.keepModified (h : Bounded before max echo s t) (hplace : 0 ≤ s.history) :
    Bounded before max echo s.keepModified t ∧ s.keepModified.history = s.history ∧ s.keepModified.readline = s.readline := by
  have hhi := h.place.2
  unfold State.keepModified
  split
  next =>
    have hfits := h.fits
    have hhistory := historyBuf_eq
    rw [h.buf]
    refine ⟨⟨h.addHistory h.clear h.enterable (by omega),
      ⟨h.clear, h.text.congr fun x _ hhi => addHistory_below h.clear (by omega), h.fits, h.llen, h.lpos, h.maxlen⟩, h.short,
      fun hneg => absurd hneg ?_⟩, rfl, rfl⟩
    show ¬ s.history < 0
    omega
  next => exact ⟨h, rfl, rfl⟩

/-- A line is fetched. -/
theorem Kept.fetch (h : Kept before max echo s) (hclear : s.pending = false) {history : Int} {l : List Byte} (hl : Enterable max echo l)
    (hplace : -1 ≤ history ∧ history < s.numHistory)
    (hsaved : 0 ≤ history → ∃ l, Holds 0 s.cmdline 0 l ∧ (l.length : Int) < min max maxCmdline)
    (hworking : history < 0 → (l.length : Int) < max) :
    Bounded before max echo (({ s with history := history } : State).fetch l) l := by
  have hholds : Holds 0 (Memory.store s.mem cmdlineBuf (l ++ [0])) cmdlineBuf l := StringPool.holds_store _ _ hl.chars
  have hbuf : str (Memory.store s.mem cmdlineBuf (l ++ [0])) cmdlineBuf = l := str_eq hholds hl.fits
  have hfits := hl.fits
  rw [fetch_eq hclear, hbuf]
  have hmem (x : Nat) (hx : historyBuf ≤ x) : Memory.store s.mem cmdlineBuf (l ++ [0]) x = s.mem x := by
    have hhistory := historyBuf_eq
    apply Memory.store_of_ge
    rw [List.length_append, List.length_singleton]
    omega
  have hkept : Kept before max echo
      { s with mem := Memory.store s.mem cmdlineBuf (l ++ [0]), llen := l.length, lpos := l.length, history := history } := by
    refine ⟨h.limit, h.echoChar, h.numHistory, fun hreadline i hi => ?_, hplace, hsaved, h.outside⟩
    obtain ⟨l', hholds', hl'⟩ := h.lines hreadline i hi
    exact ⟨l', hholds'.congr fun x hlo _ => hmem x ((Nat.le_add_right _ _).trans hlo), hl'⟩
  have hlies : Lies { s with mem := Memory.store s.mem cmdlineBuf (l ++ [0]), llen := l.length, lpos := l.length, history := history } l :=
    ⟨hclear, hholds, hfits, rfl, Nat.le_refl _, h.limit.le.trans (min_le_right _ _)⟩
  exact ⟨hkept.edits (clRefresh_screen _ true).edits, hlies.screen (clRefresh_screen _ true), hl.short, hworking⟩

/-- **C-p** -/
theorem Bounded.previous (h : Bounded before max echo s t) (hreadline : s.readline = true) :
    ∃ t', Bounded before max echo s.previous t' := by
  have hfetch {s₁ : State} (h₁ : Bounded before max echo s₁ t) (hreadline : s₁.readline = true)
    (hsaved : ∃ l, Holds 0 s₁.cmdline 0 l ∧ (l.length : Int) < min max maxCmdline) :
      ∃ t', Bounded before max echo ((s₁.getHistory (s₁.history + 1)).elim s₁ fun p =>
        ({ s₁ with history := s₁.history + 1 } : State).fetch p) t' := by
    cases hline : s₁.getHistory (s₁.history + 1) with
    | none => exact ⟨t, h₁⟩
    | some l =>
      obtain ⟨hl, hlo, hhi⟩ := h₁.getHistory hreadline hline
      exact ⟨l, h₁.fetch h₁.clear hl ⟨by omega, hhi⟩ (fun _ => hsaved) fun hneg => absurd hneg (by omega)⟩
  rw [previous_eq h.clear]
  by_cases hhistory : s.history < 0
  · have hworking := h.working hhistory
    have hfits := h.fits
    have hstored : Holds 0 (Memory.store s.cmdline 0 (t ++ [0])) 0 t := StringPool.holds_store _ _ h.text.chars
    rw [if_pos hhistory, h.buf]
    refine hfetch ⟨⟨h.limit, h.echoChar, h.numHistory, h.lines, h.place, fun hpos => absurd hpos (by show ¬ 0 ≤ s.history; omega),
      fun x hx => ?_⟩,
      ⟨h.clear, h.text, h.fits, h.llen, h.lpos, h.maxlen⟩, h.short, h.working⟩ hreadline ⟨t, hstored, by omega⟩
    show Memory.store s.cmdline 0 (t ++ [0]) x = before x
    rw [Memory.store_of_ge, h.outside x hx]
    rw [List.length_append, List.length_singleton]
    omega
  · obtain ⟨hkept, hsame, hcall⟩ := h.keepModified (by omega)
    rw [if_neg hhistory]
    exact hfetch hkept (hcall.trans hreadline) (hkept.saved (by omega))

/-- **C-n** -/
theorem Bounded.next (h : Bounded before max echo s t) (hreadline : s.readline = true) : ∃ t', Bounded before max echo s.next t' := by
  unfold State.next
  split
  next => exact ⟨t, h⟩
  next hhistory =>
    obtain ⟨hkept, hsame, hcall⟩ := h.keepModified (by omega)
    have hplace := hkept.place
    have hget : ({ s.keepModified with history := s.keepModified.history - 1 } : State).getHistory (s.keepModified.history - 1) =
        s.keepModified.getHistory (s.keepModified.history - 1) := rfl
    obtain ⟨l, hsaved, hlen⟩ := hkept.saved (by omega)
    dsimp only
    rw [hget]
    cases hline : s.keepModified.getHistory (s.keepModified.history - 1) with
    | none =>
      have hle := @entered_length_le echo l
      have hfits : l.length < maxCmdline := by omega
      have hneg : s.keepModified.history - 1 < 0 := by
        have hnone := hline
        unfold State.getHistory at hnone
        split at hnone
        next hout => omega
        next => exact nomatch hnone
      rw [Option.getD_none, str_eq hsaved hfits]
      exact ⟨l, hkept.fetch hkept.clear ⟨hsaved.chars, hfits, by omega⟩ ⟨by omega, by omega⟩ (fun hpos => absurd hpos (by omega))
        fun _ => by omega⟩
    | some p =>
      obtain ⟨hp, hlo, hhi⟩ := hkept.getHistory (hcall.trans hreadline) hline
      rw [Option.getD_some]
      exact ⟨p, hkept.fetch hkept.clear hp ⟨by omega, hhi⟩ (fun _ => ⟨l, hsaved, hlen⟩) fun hneg => absurd hneg (by omega)⟩

/-! ## Keys -/

/-- **The readline-like keys.** -/
theorem Bounded.readlineKey (h : Bounded before max echo s t) (hreadline : s.readline = true) (k : Key) :
    ∃ t', Bounded before max echo (s.readlineKey k) t' := by
  have hlpos := h.lpos
  have hllen := h.llen
  unfold State.readlineKey
  split
  · obtain ⟨t', hedited⟩ := h.toLies.complete k.completions
    exact ⟨t', h.edited hedited⟩
  · exact ⟨t, h.edited (h.toLies.backward s.lpos)⟩
  · exact ⟨t, h.edited (h.toLies.forward (by omega))⟩
  · split
    · exact ⟨t, h.edited (h.toLies.forward (by omega))⟩
    · exact ⟨t, h⟩
  · split
    · exact ⟨t, h.edited (h.toLies.backward 1)⟩
    · exact ⟨t, h⟩
  · obtain ⟨t', hedited⟩ := h.toLies.killBackward
    exact ⟨t', h.edited hedited⟩
  · obtain ⟨t', hedited⟩ := h.toLies.killForward
    exact ⟨t', h.edited hedited⟩
  · obtain ⟨t', hgrown⟩ := h.toLies.insert (str_chars s.mem killBuf)
    exact ⟨t', h.edited hgrown.edited⟩
  · exact h.previous hreadline
  · exact h.next hreadline
  · exact ⟨t, h⟩

/-- **Every key** but the one that enters the line. -/
theorem Bounded.key (h : Bounded before max echo s t) {k : Key} (hk : ¬ newline k.c) :
    (∃ s' t', s.key k = .editing s' ∧ Bounded before max echo s' t') ∨ ∃ s', s.key k = .returned 1 s' ∧ ∀ x : Nat, max ≤ x →
      s'.cmdline x = before x := by
  have hreturn : ¬ (k.c.toNat = 10 ∨ k.c.toNat = 13) := by
    intro hin
    apply hk
    rw [newline, decide_eq_true_iff]
    exact hin.imp (fun hc => BitVec.eq_of_toNat_eq hc) fun hc => BitVec.eq_of_toNat_eq hc
  have hreadline : ∃ t', Bounded before max echo (if s.readline = true then s.readlineKey k else s) t' := by
    split
    next hreadline => exact h.readlineKey hreadline k
    next => exact ⟨t, h⟩
  unfold State.key
  rw [if_neg hreturn]
  dsimp only
  generalize (if s.readline = true then s.readlineKey k else s) = s₁ at hreadline ⊢
  obtain ⟨t₁, h₁⟩ := hreadline
  have hlpos := h₁.lpos
  have hllen := h₁.llen
  split
  · exact .inr ⟨s₁, rfl, h₁.outside⟩
  · by_cases hend : s₁.lpos = s₁.llen
    · rw [if_pos hend]
      exact .inl ⟨s₁, t₁, rfl, h₁⟩
    · rw [if_neg hend]
      exact .inl ⟨_, _, rfl, h₁.edited (h₁.toLies.delete (by omega))⟩
  · by_cases hstart : 0 < s₁.lpos
    · have hback := h₁.toLies.backward 1
      have hbefore : (s₁.clBackward 1).lpos = s₁.lpos - 1 := (clBackward_screen s₁ 1).lpos
      rw [if_pos hstart]
      exact .inl ⟨_, _, rfl, h₁.edited (hback.trans (hback.lies.delete (by omega)))⟩
    · rw [if_neg hstart]
      exact .inl ⟨s₁, t₁, rfl, h₁⟩
  · by_cases hprintable : 0x20 ≤ k.c.toNat ∧ k.c.toNat ≤ 0x7E
    · have hchar : (0 : Byte) ∉ [k.c] := by
        rw [List.mem_singleton]
        exact fun hz => toNat_lt_ne_zero hprintable.1 hz.symm
      obtain ⟨t', hgrown⟩ := h₁.toLies.insert hchar
      rw [if_pos hprintable]
      exact .inl ⟨_, t', rfl, h₁.edited hgrown.edited⟩
    · rw [if_neg hprintable]
      exact .inl ⟨s₁, t₁, rfl, h₁⟩

/-- **The end of a line.** -/
theorem Bounded.finish (h : Bounded before max echo s t) :
    (∀ x : Nat, max ≤ x → s.finish.cmdline x = before x) ∧ Holds 0 s.finish.cmdline 0 (entered echo t) := by
  obtain ⟨w, hw, htext⟩ : ∃ w, w.length = (if echo = 0 then (t.takeWhile fun c => c = 0x20).length else 0) ∧ t = w ++ entered echo t := by
    unfold entered
    split
    · exact ⟨_, rfl, List.takeWhile_append_dropWhile.symm⟩
    · exact ⟨[], rfl, rfl⟩
  have hholds : Holds 0 s.mem (cmdlineBuf + w.length) (entered echo t) := by
    have htext' := h.text
    rw [htext] at htext'
    exact htext'.drop
  have hlen : s.llen - w.length = (entered echo t).length := by
    rw [h.llen, congrArg List.length htext, List.length_append]
    omega
  have hstored : s.finish.cmdline = Memory.store s.cmdline 0 (entered echo t ++ [0]) := by
    rw [finish_eq h.clear, h.buf, h.echoChar, ← hw]
    dsimp only
    rw [hlen, hholds.cells]
    split <;> rfl
  have hshort := h.short
  rw [hstored]
  refine ⟨fun x hx => ?_, StringPool.holds_store _ _ hholds.chars⟩
  rw [Memory.store_of_ge, h.outside x hx]
  rw [List.length_append, List.length_singleton]
  omega

/-- **Every sequence of keys.** -/
theorem Bounded.keys (ks : List Key) (h : Bounded before max echo s t) : (s.keys ks).input.Within max before := by
  induction ks generalizing s t with
  | nil => exact h.outside
  | cons k ks ih =>
    rw [State.keys]
    by_cases hk : newline k.c
    · have hfinish : s.key k = .returned 0 s.finish := by
        unfold State.key
        rw [if_pos]
        rw [newline, decide_eq_true_iff] at hk
        exact hk.imp (fun hc => congrArg BitVec.toNat hc) fun hc => congrArg BitVec.toNat hc
      obtain ⟨houtside, hholds⟩ := h.finish
      rw [hfinish]
      exact ⟨houtside, fun _ => ⟨_, hholds, h.short⟩⟩
    · obtain ⟨s', t', hkey, hnext⟩ | ⟨s', hkey, houtside⟩ := h.key hk
      · rw [hkey]
        exact ih hnext
      · rw [hkey]
        exact ⟨houtside, fun hret => absurd hret (by decide)⟩

/-! ## The start -/

variable {line kill : List Byte} {history : List (List Byte)} {mem cmdline : Nat → Byte}

/-- An error is pending, and `cmdline` is as it was. -/
structure Idle (before : Nat → Byte) (s : State) : Prop where
  pending : s.pending = true
  cmdline : s.cmdline = before
  readline : s.readline = false

theorem Idle.screen (h : Idle before s) (hscreen : OnScreen s s') : Idle before s' :=
  ⟨hscreen.pending.trans h.pending, hscreen.cmdline.trans h.cmdline, hscreen.readline.trans h.readline⟩

theorem Idle.insert (h : Idle before s) (u : List Byte) : Idle before (s.clInsert u) := by
  unfold State.clInsert
  dsimp only
  split
  next =>
    apply Idle.screen _ (clRefresh_screen _ _)
    exact ⟨h.pending, h.cmdline, h.readline⟩
  next => exact h

theorem Idle.delete (h : Idle before s) (n : Nat) : Idle before (s.clDelete n) := by
  unfold State.clDelete
  apply Idle.screen _ (clRefresh_screen _ _)
  exact ⟨h.pending, h.cmdline, h.readline⟩

theorem Idle.backward (h : Idle before s) (n : Nat) : Idle before (s.clBackward n) :=
  Idle.screen (s := { s with lpos := s.lpos - n }) ⟨h.pending, h.cmdline, h.readline⟩ (clBackward_screen s n)

theorem Idle.finish (h : Idle before s) : s.finish.cmdline = before := by
  have hcopied (m : Nat → Byte) (n : Nat) (bytes : List Byte) : s.copied m n bytes = m := by
    rw [State.copied, h.pending, if_pos rfl]
  unfold State.finish
  simp only [h.readline, Bool.false_eq_true, false_and, if_false, hcopied]
  exact h.cmdline

theorem Idle.key (h : Idle before s) (k : Key) : (∃ s', s.key k = .editing s' ∧ Idle before s') ∨
    ∃ ret s', s.key k = .returned ret s' ∧ s'.cmdline = before := by
  unfold State.key
  split
  next => exact .inr ⟨_, _, rfl, h.finish⟩
  next =>
    simp only [h.readline, Bool.false_eq_true, if_false]
    split
    next => exact .inr ⟨_, _, rfl, h.cmdline⟩
    next =>
      refine .inl ⟨_, rfl, ?_⟩
      split
      next => exact h
      next => exact h.delete 1
    next =>
      refine .inl ⟨_, rfl, ?_⟩
      split
      next => exact (h.backward 1).delete 1
      next => exact h
    next =>
      refine .inl ⟨_, rfl, ?_⟩
      split
      next => exact h.insert [k.c]
      next => exact h

/-- Without the readline-like keys, the line is returned as it was given. -/
theorem Idle.keys (ks : List Key) (h : Idle before s) (hline : Holds 0 before 0 line) {maxlen : Int}
    (hshort : (line.length : Int) < maxlen) :
    (s.keys ks).input.Within maxlen before := by
  induction ks generalizing s with
  | nil => exact fun x _ => congrFun h.cmdline x
  | cons k ks ih =>
    rw [State.keys]
    obtain ⟨s', hkey, hnext⟩ | ⟨ret, s', hkey, hcmdline⟩ := h.key k
    · rw [hkey]
      exact ih hnext
    · rw [hkey]
      exact ⟨fun x _ => congrFun hcmdline x, fun _ => ⟨line, hcmdline.symm ▸ hline, hshort⟩⟩

theorem copyWord_below (s : State) (i : Nat) {x : Nat} (hx : x < completionBuf) : (s.copyWord i).mem x = s.mem x := by
  have hmoved : s.moved completionBuf (cmdlineBuf + i) (s.lpos - i) x = s.mem x := by
    unfold State.moved CharIo.grubMemmove
    split
    next => rfl
    next => exact Memory.store_of_lt hx
  exact (Memory.store_of_lt (by omega)).trans hmoved

/-- A password of 31 characters is asked for. -/
def password : Call where
  prompt := []
  maxlen := 31
  echoChar := 0x2A
  readline := false
  pending := false
  numHistory := 0

end TrustedGrub.Line
