import TrustedGrub.Line.Bounded
import TrustedGrub.Line.Screen

/-!
# The line that is shown

The section of the line that the screen should show, column by column. A full redraw shows it whatever there was
before; a redraw from the cursor on shows it if the columns before the cursor and behind what is drawn did so.
-/

namespace TrustedGrub.Line
open Fips180 (Byte)
open StringPool (Holds)

variable {prompt : List Byte} {dumb : Bool} {s s' : State} {t : Screen} {l u : List Byte} {c : Byte} {n len count : Nat} {pos start : Int}

/-- A character that takes one column. -/
def Printing (c : Byte) : Prop := c.toNat ≠ 7 ∧ c.toNat ≠ 8 ∧ c.toNat ≠ 9 ∧ c.toNat ≠ 10 ∧ c.toNat ≠ 13

instance (c : Byte) : Decidable (Printing c) := inferInstanceAs (Decidable (_ ∧ _))

/-! ## Characters on the terminal -/

namespace Screen

def row (t : Screen) : Nat → Byte := t.cells t.y

theorem putchar_printing (t : Screen) (hc : Printing c) : t.putchar c = t.write c := by
  obtain ⟨h7, h8, h9, h10, h13⟩ := hc
  unfold putchar
  split <;> first | contradiction | rfl

/-- Characters within the row. -/
structure Put (t t' : Screen) (l : List Byte) : Prop where
  row : t'.row = Memory.store t.row t.x l
  x : t'.x = t.x + l.length
  reads : t'.reads = t.reads

theorem write_put (t : Screen) (c : Byte) (hx : t.x < 79) : Put t (t.write c) [c] := by
  have hnot : ¬ 79 ≤ t.x := Nat.not_le.2 hx
  unfold write
  rw [if_neg hnot]
  exact ⟨Function.update_self _ _ _, rfl, rfl⟩

theorem puts_put (l : List Byte) (t : Screen) (hl : ∀ c ∈ l, Printing c) (hx : t.x + l.length ≤ 79) : Put t (t.puts l) l := by
  induction l generalizing t with
  | nil => exact ⟨(Memory.store_nil t.row t.x).symm, rfl, rfl⟩
  | cons c l ih =>
    rw [List.length_cons] at hx
    have hfirst := write_put t c (by omega)
    have hrest := ih (t.write c) (fun c hc => hl c (List.mem_cons_of_mem _ hc)) (by rw [hfirst.x, List.length_singleton]; omega)
    rw [← putchar_printing t (hl c List.mem_cons_self)] at hfirst hrest
    refine ⟨?_, ?_, hrest.reads.trans hfirst.reads⟩
    · show ((t.putchar c).puts l).row = _
      rw [hrest.row, hfirst.row, hfirst.x]
      exact (Memory.store_append t.row t.x [c] l).symm
    · show ((t.putchar c).puts l).x = _
      rw [hrest.x, hfirst.x]
      simp only [List.length_cons, List.length_nil]
      omega

/-- Backspaces. -/
theorem puts_back (n : Nat) (t : Screen) : (t.puts (List.replicate n 8)).row = t.row ∧ (t.puts (List.replicate n 8)).x = t.x - n ∧
    (t.puts (List.replicate n 8)).reads = t.reads := by
  induction n generalizing t with
  | zero => exact ⟨rfl, rfl, rfl⟩
  | succ n ih =>
    obtain ⟨hrow, hx, hreads⟩ := ih (t.putchar 8)
    refine ⟨hrow, hx.trans ?_, hreads⟩
    show t.x - 1 - n = t.x - (n + 1)
    omega

end Screen

/-! ## The section -/

namespace State

/-- What a column should show: the prompt or `<`, the characters of the section, blanks, and `>` if there are more. -/
def cellAt (prompt : List Byte) (s : State) (col : Nat) : Byte :=
  if col < s.first then if s.sectionNo = 0 then prompt.getD col 0x20 else 0x3C
  else
    let i : Int := s.windowStart + (col - s.first)
    if col < cmdlineWidth then if i < s.llen then s.shown (s.mem (cmdlineBuf + i.toNat)) else 0x20
    else if i < s.llen then 0x3E else 0x20

end State

/-- The screen shows the section that the cursor is in, and the cursor at its place. Nothing but the line has been read. -/
structure Shown (prompt : List Byte) (s : State) (t : Screen) : Prop where
  row : ∀ col ≤ cmdlineWidth, t.row col = s.cellAt prompt col
  x : (t.x : Int) = s.xpos
  xpos : s.xpos = s.first + (s.lpos - s.windowStart)
  left : s.first ≤ s.xpos
  right : s.xpos < cmdlineWidth
  reads : ∀ p ∈ t.reads, 0 ≤ p.1 ∧ p.1 < p.2

/-! ## Drawing -/

/-- Nothing but the line has been read. -/
def Inside (reads : List (Int × Nat)) : Prop := ∀ p ∈ reads, 0 ≤ p.1 ∧ p.1 < p.2

/-- What is shown takes one column a character. -/
def Legible (s : State) : Prop := ∀ i < s.llen, Printing (s.shown (s.mem (cmdlineBuf + i)))

theorem shownFrom_getElem (s : State) (i : Int) {n k : Nat} (h : k < (s.shownFrom i n).length) :
    (s.shownFrom i n)[k] = s.shown (s.mem (cmdlineBuf + (i + k).toNat)) := by
  simp only [State.shownFrom, List.getElem_map, List.getElem_range]

theorem shownFrom_length (s : State) (i : Int) (n : Nat) : (s.shownFrom i n).length = n := by
  rw [State.shownFrom, List.length_map, List.length_range]

theorem putBuf_put (hs : Legible s) (i : Int) (hin : ∀ k : Nat, k < n → 0 ≤ i + k ∧ i + k < s.llen) (hx : t.x + n ≤ 79) :
    (t.putBuf s i n).row = Memory.store t.row t.x (s.shownFrom i n) ∧ (t.putBuf s i n).x = t.x + n := by
  have hlen := shownFrom_length s i n
  have hput := Screen.puts_put (s.shownFrom i n) t (by
    intro c hc
    obtain ⟨k, hk, rfl⟩ := List.mem_map.1 hc
    have hcell := hin k (List.mem_range.1 hk)
    exact hs _ (by omega)) (by rw [hlen]; exact hx)
  exact ⟨hput.row, hput.x.trans (congrArg (t.x + ·) hlen)⟩

theorem putBuf_reads (hreads : Inside t.reads) {i : Int} (h0 : 0 ≤ i) (hn : i + n ≤ s.llen) : Inside (t.putBuf s i n).reads := by
  intro p hp
  obtain hp | hp := List.mem_append.1 hp
  · obtain ⟨k, hk, rfl⟩ := List.mem_map.1 hp
    have := List.mem_range.1 hk
    constructor
    · show 0 ≤ i + (k : Int)
      omega
    · show i + (k : Int) < s.llen
      omega
  · exact hreads p hp

/-- What drawing leaves on the screen. -/
structure Drawn (prompt : List Byte) (s : State) (t : Screen) (len : Nat) (t' : Screen) : Prop where
  drawn : ∀ col, t.x ≤ col → col < t.x + len → t'.row col = s.cellAt prompt col
  mark : t.x + len = cmdlineWidth → t'.row cmdlineWidth = s.cellAt prompt cmdlineWidth
  before : ∀ col < t.x, t'.row col = t.row col
  behind : ∀ col, t.x + len ≤ col → t.x + len ≠ cmdlineWidth → t'.row col = t.row col
  x : (t'.x : Int) = s.xpos
  reads : Inside t.reads → Inside t'.reads

/-- **The rest of `cl_refresh`.** -/
theorem draw_drawn (hs : Legible s) (hstart : start = s.windowStart + ((t.x : Int) - s.first)) (h0 : 0 ≤ start) (hfirst : s.first ≤ t.x)
    (hlen : t.x + len ≤ cmdlineWidth) (hx : 0 ≤ s.xpos) (hback : s.xpos ≤ t.x + len) :
    Drawn prompt s t len (t.draw dumb s t.x start len) := by
  have hW : cmdlineWidth = 78 := rfl
  obtain ⟨n, hn⟩ : ∃ n, n = min len (s.llen - start).toNat := ⟨_, rfl⟩
  have hnlen : n ≤ len := by omega
  obtain ⟨hrow₁, hx₁⟩ := putBuf_put (t := t) (n := n) hs start (fun k hk => by omega) (by omega)
  have hput := Screen.puts_put (List.replicate (len - n) 0x20) (t.putBuf s start n) (fun c hc => by
    rw [List.eq_of_mem_replicate hc]
    decide) (by rw [hx₁, List.length_replicate]; omega)
  have hreads₁ (h : Inside t.reads) : Inside (t.putBuf s start n).reads := by
    by_cases hpos : n = 0
    · subst hpos
      exact h
    · exact putBuf_reads h h0 (by omega)
  -- The cells behind the characters and the blanks.
  generalize ht₂ : (t.putBuf s start n).puts (List.replicate (len - n) 0x20) = t₂ at hput
  have hx₂ : t₂.x = t.x + len := by
    rw [hput.x, hx₁, List.length_replicate]
    omega
  have hrow₂ : ∀ col, t₂.row col = if t.x ≤ col ∧ col < t.x + len then s.cellAt prompt col else t.row col := by
    intro col
    have hchars : (s.shownFrom start n).length = n := shownFrom_length s start n
    rw [hput.row, hrow₁, hx₁]
    obtain hlt | hge := Nat.lt_or_ge col (t.x + n)
    · rw [Memory.store_of_lt hlt]
      obtain hbefore | hin := Nat.lt_or_ge col t.x
      · rw [Memory.store_of_lt hbefore, if_neg (by omega)]
      · obtain ⟨k, rfl⟩ := Nat.exists_eq_add_of_le hin
        have hk : k < (s.shownFrom start n).length := by omega
        have hindex : s.windowStart + (((t.x + k : Nat) : Int) - s.first) = start + k := by omega
        rw [Memory.store_at hk, shownFrom_getElem s start hk, if_pos (by omega), State.cellAt, if_neg (by omega), hindex]
        dsimp only
        rw [if_pos (by omega), if_pos (by omega)]
    · obtain hblank | hbehind := Nat.lt_or_ge col (t.x + len)
      · obtain ⟨k, rfl⟩ := Nat.exists_eq_add_of_le hge
        have hk : k < (List.replicate (len - n) (0x20 : Byte)).length := by
          rw [List.length_replicate]
          omega
        have hindex : s.windowStart + (((t.x + n + k : Nat) : Int) - s.first) = start + (n + k) := by omega
        rw [Memory.store_at hk, List.getElem_replicate, if_pos (by omega), State.cellAt, if_neg (by omega), hindex]
        dsimp only
        rw [if_pos (by omega), if_neg (by omega)]
      · rw [Memory.store_of_ge (by rw [List.length_replicate]; omega), Memory.store_of_ge (by omega), if_neg (by omega)]
  -- The mark behind the section.
  obtain ⟨t₃, ht₃⟩ : ∃ t₃, t₃ = if (t.x : Int) + len = cmdlineWidth then t₂.putchar (if start + len < s.llen then 0x3E else 0x20) else t₂ :=
    ⟨_, rfl⟩
  have hfinal : t.draw dumb s t.x start len =
      if dumb then t₃.puts (List.replicate ((if (t.x : Int) + len = cmdlineWidth then (t.x : Int) + len + 1 else (t.x : Int) + len) -
        s.xpos).toNat 8)
      else t₃.gotoxy s.xpos.toNat := by
    rw [ht₃, ← ht₂, hn]
    rfl
  have hreads₂ (h : Inside t.reads) : Inside t₂.reads := hput.reads ▸ hreads₁ h
  obtain ⟨hrow₃, hx₃, hreads₃⟩ :
      (∀ col, t₃.row col = if t.x + len = cmdlineWidth ∧ col = cmdlineWidth then s.cellAt prompt col else t₂.row col) ∧
      ((t₃.x : Int) = if (t.x : Int) + len = cmdlineWidth then (t.x : Int) + len + 1 else (t.x : Int) + len) ∧ t₃.reads = t₂.reads := by
    by_cases hfull : (t.x : Int) + len = cmdlineWidth
    · have hprinting : Printing (if start + len < s.llen then 0x3E else 0x20) := by
        split <;> decide
      have hwrite := Screen.write_put t₂ (if start + len < s.llen then 0x3E else 0x20) (by omega)
      rw [if_pos hfull, Screen.putchar_printing t₂ hprinting] at ht₃
      rw [← ht₃] at hwrite
      refine ⟨fun col => ?_, ?_, hwrite.reads⟩
      · rw [hwrite.row, hx₂]
        by_cases hcol : col = cmdlineWidth
        · have hindex : s.windowStart + ((cmdlineWidth : Int) - s.first) = start + len := by omega
          have hat := @Memory.store_at _ t₂.row (t.x + len) 0 [if start + len < s.llen then (0x3E : Byte) else 0x20] Nat.zero_lt_one
          have hcell : s.cellAt prompt cmdlineWidth = if start + len < s.llen then 0x3E else 0x20 := by
            rw [State.cellAt, if_neg (by omega), hindex]
            rfl
          have hend : t.x + len + 0 = cmdlineWidth := by omega
          rw [hcol, if_pos (show t.x + len = cmdlineWidth ∧ cmdlineWidth = cmdlineWidth from ⟨by omega, rfl⟩), hcell]
          rw [hend] at hat
          exact hat
        · rw [if_neg (show ¬ (t.x + len = cmdlineWidth ∧ col = cmdlineWidth) from fun hin => hcol hin.2)]
          obtain hlt | hgt := Nat.lt_or_gt_of_ne (show col ≠ t.x + len by omega)
          · exact Memory.store_of_lt hlt
          · exact Memory.store_of_ge (by rw [List.length_singleton]; omega)
      · rw [if_pos hfull, hwrite.x, hx₂, List.length_singleton]
        omega
    · rw [if_neg hfull] at ht₃ ⊢
      rw [ht₃]
      exact ⟨fun col => (if_neg (by omega)).symm, by omega, rfl⟩
  obtain ⟨hrow, hxlast, hreads⟩ : (t.draw dumb s t.x start len).row = t₃.row ∧ ((t.draw dumb s t.x start len).x : Int) = s.xpos ∧
      (t.draw dumb s t.x start len).reads = t₃.reads := by
    rw [hfinal]
    cases dumb with
    | false => exact ⟨rfl, Int.toNat_of_nonneg hx, rfl⟩
    | true =>
      obtain ⟨hback₁, hback₂, hback₃⟩ := Screen.puts_back
        ((if (t.x : Int) + len = cmdlineWidth then (t.x : Int) + len + 1 else (t.x : Int) + len) - s.xpos).toNat t₃
      refine ⟨hback₁, ?_, hback₃⟩
      show ((t₃.puts (List.replicate _ 8)).x : Int) = _
      rw [hback₂]
      split at hx₃ <;> omega
  refine ⟨fun col hlo hhi => ?_, fun hfull => ?_, fun col hlt => ?_, fun col hge hpart => ?_, hxlast, fun h => hreads ▸ hreads₃ ▸ hreads₂ h⟩
  · rw [hrow, hrow₃, if_neg (by omega), hrow₂, if_pos ⟨hlo, hhi⟩]
  · rw [hrow, hrow₃, if_pos ⟨hfull, rfl⟩]
  · rw [hrow, hrow₃, if_neg (by omega), hrow₂, if_neg (by omega)]
  · rw [hrow, hrow₃, if_neg (fun hin => hpart hin.1), hrow₂, if_neg (by omega)]

/-! ## Redrawing -/

/-- The prompt leaves room for a section, and is shown. -/
structure Prompted (prompt : List Byte) (s : State) : Prop where
  plen : s.plen = prompt.length
  short : prompt.length + cmdlineMargin < cmdlineWidth
  printing : ∀ c ∈ prompt, Printing c

theorem windowStart_eq (h : s.sectionNo ≠ 0) : s.windowStart = ((s.sectionNo : Int) - 1) * 67 + 68 - s.plen := by
  unfold State.windowStart
  rw [if_neg h]
  show ((s.sectionNo : Int) - 1) * 67 + 78 - s.plen - 10 = _
  omega

theorem windowStart_zero (h : s.sectionNo = 0) : s.windowStart = 0 := if_pos h

theorem Prompted.windowStart (h : Prompted prompt s) : 0 ≤ s.windowStart := by
  have hplen := h.plen
  have hshort : prompt.length + 10 < 78 := h.short
  by_cases hsection : s.sectionNo = 0
  · rw [windowStart_zero hsection]
  · rw [windowStart_eq hsection]
    omega

theorem Prompted.first (h : Prompted prompt s) : s.first < cmdlineWidth := by
  have hW : cmdlineWidth = 78 := rfl
  have hplen := h.plen
  have hshort := h.short
  unfold State.first
  split <;> omega

/-- The cursor is where it should be. -/
structure Placed (s : State) : Prop where
  xpos : s.xpos = s.first + (s.lpos - s.windowStart)
  left : s.first ≤ s.xpos
  right : s.xpos < cmdlineWidth

/-- `xpos` is computed from the section. -/
theorem clRefresh_xpos (s : State) (full : Bool) :
    (s.clRefresh full).xpos = (s.clRefresh full).first + ((s.clRefresh full).lpos - (s.clRefresh full).windowStart) := by
  have hx : (s.clRefresh full).xpos = if (s.clRefresh full).sectionNo = 0 then (s.lpos : Int) + s.plen
      else s.lpos + 1 - (((s.clRefresh full).sectionNo - 1 : Int) * (cmdlineWidth - 1 - cmdlineMargin : Nat) + cmdlineWidth - s.plen -
        cmdlineMargin) := rfl
  have hlpos : (s.clRefresh full).lpos = s.lpos := rfl
  have hplen : (s.clRefresh full).plen = s.plen := rfl
  rw [hx, hlpos, State.first, State.windowStart, hplen]
  split <;> omega

/-- The section is computed from the cursor. -/
theorem clRefresh_placed (h : Prompted prompt s) : Placed (s.clRefresh true) := by
  have hplen := h.plen
  have hxpos := clRefresh_xpos s true
  have hlpos : (s.clRefresh true).lpos = s.lpos := rfl
  have hplen' : (s.clRefresh true).plen = s.plen := rfl
  have hsection : (s.clRefresh true).sectionNo = if s.lpos + s.plen < 78 then 0 else (s.lpos + s.plen - 78) / 67 + 1 := rfl
  by_cases hzero : s.lpos + s.plen < 78
  · rw [if_pos hzero] at hsection
    have hstart := windowStart_zero hsection
    have hfirst : (s.clRefresh true).first = s.plen := if_pos hsection
    refine ⟨hxpos, ?_, ?_⟩
    · omega
    · show _ < (78 : Int)
      omega
  · rw [if_neg hzero] at hsection
    have hne : (s.clRefresh true).sectionNo ≠ 0 := by omega
    have hstart := windowStart_eq hne
    have hfirst : (s.clRefresh true).first = 1 := if_neg hne
    refine ⟨hxpos, ?_, ?_⟩
    · omega
    · show _ < (78 : Int)
      omega

theorem cellAt_before {col : Nat} (hcol : col < s.first) : s.cellAt prompt col = if s.sectionNo = 0 then prompt.getD col 0x20 else 0x3C :=
  if_pos hcol

theorem cellAt_behind {col : Nat} (hcol : s.first ≤ col) (hend : s.llen ≤ s.windowStart + ((col : Int) - s.first)) :
    s.cellAt prompt col = 0x20 := by
  rw [State.cellAt, if_neg (Nat.not_lt.2 hcol)]
  dsimp only
  rw [if_neg (Int.not_lt.2 hend), if_neg (Int.not_lt.2 hend)]
  exact ite_self _

/-- What a column shows is said by the section, `llen` and the characters of the line. -/
theorem cellAt_congr (hsection : s'.sectionNo = s.sectionNo) (hplen : s'.plen = s.plen) (hecho : s'.echoChar = s.echoChar)
    (hllen : s'.llen = s.llen)
    (hmem : ∀ i < s.llen, s'.mem (cmdlineBuf + i) = s.mem (cmdlineBuf + i)) (hstart : 0 ≤ s.windowStart) (col : Nat) :
    s'.cellAt prompt col = s.cellAt prompt col := by
  have hfirst : s'.first = s.first := by rw [State.first, hsection, hplen]; rfl
  have hwindow : s'.windowStart = s.windowStart := by rw [State.windowStart, hsection, hplen]; rfl
  rw [State.cellAt, State.cellAt, hfirst, hwindow, hsection, hllen]
  split
  next => rfl
  next hcol =>
    dsimp only
    split
    next =>
      split
      next hin => rw [State.shown, State.shown, hecho, hmem _ (by omega)]
      next => rfl
    next => rfl

/-- **A full redraw** shows the section, whatever there was on the screen. -/
theorem redraw_shown (h : Prompted prompt s) (hs : Legible s) (hplaced : Placed s) (hreads : Inside t.reads) :
    Shown prompt s (t.redraw prompt dumb s) := by
  have hW : cmdlineWidth = 78 := rfl
  have hfirst := h.first
  have hleft := hplaced.left
  have hright := hplaced.right
  obtain ⟨head, hhead⟩ : ∃ head, head = if s.sectionNo = 0 then prompt else [0x3C] := ⟨_, rfl⟩
  have hlen : head.length = s.first := by
    rw [hhead, State.first]
    split
    next => exact h.plen.symm
    next => rfl
  have hprinting : ∀ c ∈ head, Printing c := by
    rw [hhead]
    split
    next => exact h.printing
    next => exact fun c hc => List.mem_singleton.1 hc ▸ by decide
  have hput := Screen.puts_put head (t.putchar 0x0D) hprinting (by
    show 0 + head.length ≤ 79
    omega)
  have hx : ((t.putchar 0x0D).puts head).x = s.first := hput.x.trans (hlen ▸ Nat.zero_add _)
  have hdrawn : Drawn prompt s ((t.putchar 0x0D).puts head) (cmdlineWidth - s.first)
      (((t.putchar 0x0D).puts head).draw dumb s ((t.putchar 0x0D).puts head).x s.windowStart (cmdlineWidth - s.first)) :=
    draw_drawn hs (by omega) h.windowStart (by omega) (by omega) (by omega) (by omega)
  have hcall : t.redraw prompt dumb s = ((t.putchar 0x0D).puts head).draw dumb s ((t.putchar 0x0D).puts head).x s.windowStart
    (cmdlineWidth - s.first) := by
    rw [hx, hhead]
    rfl
  rw [← hcall] at hdrawn
  refine ⟨fun col hcol => ?_, hdrawn.x, hplaced.xpos, hplaced.left, hplaced.right, hdrawn.reads (hput.reads ▸ hreads)⟩
  obtain hlt | hge := Nat.lt_or_ge col s.first
  · rw [hdrawn.before col (by omega), hput.row, cellAt_before hlt]
    have hcell := @Memory.store_at _ (t.putchar 0x0D).row 0 col head (by omega)
    rw [Nat.zero_add] at hcell
    refine hcell.trans ((List.getElem_eq_getD 0x20).trans ?_)
    rw [hhead]
    split
    next => rfl
    next hsection =>
      have hone : s.first = 1 := if_neg hsection
      rw [show col = 0 by omega]
      rfl
  · obtain hin | rfl := Nat.lt_or_eq_of_le hcol
    · exact hdrawn.drawn col (by omega) (by omega)
    · exact hdrawn.mark (by omega)

theorem Prompted.refreshed (h : Prompted prompt s) (full : Bool) : Prompted prompt (s.clRefresh full) := ⟨h.plen, h.short, h.printing⟩

/-- **`cl_refresh` of the full line**. -/
theorem refresh_full (h : Prompted prompt s) (hs : Legible s) (hreads : Inside t.reads) (len : Nat) :
    Shown prompt (s.clRefresh true) (t.refresh prompt dumb s true len) :=
  redraw_shown (h.refreshed true) hs (clRefresh_placed h) hreads

/-- What is the same before and behind a part of the line that is drawn. -/
structure Around (s s' : State) (len : Nat) : Prop where
  sectionNo : s'.sectionNo = s.sectionNo
  plen : s'.plen = s.plen
  echoChar : s'.echoChar = s.echoChar
  xpos : s'.xpos = s.xpos
  before : ∀ i < s.lpos, s'.mem (cmdlineBuf + i) = s.mem (cmdlineBuf + i)
  inside : s.lpos ≤ s.llen ∧ s.lpos ≤ s'.lpos ∧ s'.lpos ≤ s'.llen
  behind : s.xpos + len = cmdlineWidth ∨ s.llen ≤ s.lpos + len ∧ s'.llen ≤ s.lpos + len
  cursor : s'.lpos ≤ s.lpos + len

/-- **`cl_refresh` from the cursor on**. -/
theorem refresh_part (h : Shown prompt s t) (hprompt : Prompted prompt s) (hs : Legible s') (haround : Around s s' len)
    (hlen : s.xpos + len ≤ cmdlineWidth) (hright : s'.first + (s'.lpos - s'.windowStart) < cmdlineWidth) :
    Shown prompt (s'.clRefresh false) (t.refresh prompt dumb s' false len) := by
  have hW : cmdlineWidth = 78 := rfl
  have hx := h.x
  have hxpos := h.xpos
  have hleft := h.left
  have hstart₀ := hprompt.windowStart
  have hinside := haround.inside
  have hcursor := haround.cursor
  have hfirst : s'.first = s.first := by rw [State.first, haround.sectionNo, haround.plen]; rfl
  have hstart : s'.windowStart = s.windowStart := by rw [State.windowStart, haround.sectionNo, haround.plen]; rfl
  have hnew : (s'.clRefresh false).xpos = s'.first + (s'.lpos - s'.windowStart) := clRefresh_xpos s' false
  have hdrawn :
      Drawn prompt (s'.clRefresh false) t len (t.draw dumb (s'.clRefresh false) t.x (s'.windowStart + (s'.xpos - s'.first)) len) := by
    have hlegible : Legible (s'.clRefresh false) := hs
    apply draw_drawn hlegible
    · rw [haround.xpos, ← hx]
      rfl
    · rw [haround.xpos]
      omega
    · show s'.first ≤ t.x
      omega
    · omega
    · omega
    · omega
  have hcall : t.refresh prompt dumb s' false len = t.draw dumb (s'.clRefresh false) t.x (s'.windowStart + (s'.xpos - s'.first)) len := by
    rw [hx, ← haround.xpos]
    rfl
  rw [← hcall] at hdrawn
  have hcell (col : Nat) : (s'.clRefresh false).cellAt prompt col = s'.cellAt prompt col := rfl
  refine ⟨fun col hcol => ?_, hdrawn.x, hnew, ?_, ?_, hdrawn.reads h.reads⟩
  · obtain hlt | hge := Nat.lt_or_ge col t.x
    · -- The characters before the cursor are the same ones.
      rw [hdrawn.before col hlt, h.row col hcol, hcell, State.cellAt, State.cellAt, hfirst, hstart, haround.sectionNo]
      split
      next => rfl
      next hin =>
        obtain ⟨i, hi⟩ : ∃ i : Nat, (i : Int) = s.windowStart + (col - s.first) := ⟨(s.windowStart + (col - s.first)).toNat, by omega⟩
        rw [← hi]
        dsimp only
        rw [if_pos (show col < cmdlineWidth by have := h.right; omega), if_pos (show col < cmdlineWidth by have := h.right; omega),
          if_pos (by omega), if_pos (by omega), Int.toNat_natCast, haround.before i (by omega), State.shown, State.shown, haround.echoChar]
    · obtain hin | hout := Nat.lt_or_ge col (t.x + len)
      · exact hdrawn.drawn col hge hin
      · by_cases hfull : t.x + len = cmdlineWidth
        · rw [show col = cmdlineWidth by omega]
          exact hdrawn.mark hfull
        · -- There was nothing behind what is drawn, and there is nothing now.
          obtain hall | hshort := haround.behind
          · omega
          · rw [hdrawn.behind col hout hfull, h.row col hcol, hcell, cellAt_behind (by omega) (by omega),
              cellAt_behind (by omega) (by omega)]
  · show (s'.first : Int) ≤ _
    omega
  · omega

/-! ## The functions of the editor -/

/-- Every character that can get into the line takes one column: those of the buffers, and the line that has been saved. -/
structure Printed (s : State) : Prop where
  mem : ∀ i < completionBuf, Printing (s.mem i)
  saved : 0 ≤ s.history → ∀ c ∈ str s.cmdline 0, Printing c
  echoChar : Printing s.echoChar

/-- No error is pending, and the line fits into its buffer. -/
structure Roomy (s : State) : Prop where
  clear : s.pending = false
  fits : s.llen ≤ maxCmdline
  maxlen : s.maxlen ≤ maxCmdline

/-- The screen shows the line. -/
structure Coherent (prompt : List Byte) (s : State)
    (t : Screen) : Prop extends Prompted prompt s, Printed s, Roomy s, Shown prompt s t where
  lpos : s.lpos ≤ s.llen

theorem Printed.legible (h : Printed s) (hfits : s.llen ≤ maxCmdline) : Legible s := by
  have hcompletion := completionBuf_eq
  intro i hi
  unfold State.shown
  split
  · exact h.mem _ (by omega)
  · exact h.echoChar

theorem Printed.screen (h : Printed s) (hscreen : OnScreen s s') : Printed s' where
  mem := hscreen.mem ▸ h.mem
  saved := by
    rw [hscreen.history, hscreen.cmdline]
    exact h.saved
  echoChar := hscreen.echoChar ▸ h.echoChar

theorem Roomy.screen (h : Roomy s) (hscreen : OnScreen s s') : Roomy s' :=
  ⟨hscreen.pending.trans h.clear, hscreen.llen.le.trans h.fits, hscreen.maxlen.le.trans h.maxlen⟩

/-- The full line is drawn again. -/
theorem Coherent.full (hprompt : Prompted prompt s) (hprinted : Printed s) (hroomy : Roomy s) (hlpos : s.lpos ≤ s.llen)
    (hreads : Inside t.reads) (len : Nat) :
    Coherent prompt (s.clRefresh true) (t.refresh prompt dumb s true len) where
  toPrompted := hprompt.refreshed true
  toPrinted := hprinted.screen (clRefresh_screen s true)
  toRoomy := hroomy.screen (clRefresh_screen s true)
  toShown := refresh_full hprompt (hprinted.legible hroomy.fits) hreads len
  lpos := hlpos

/-- The cursor moves within the section. -/
theorem Coherent.moved (h : Coherent prompt s t) {n : Nat} {x : Int} {t' : Screen} (hn : n ≤ s.llen)
    (hx : x = s.first + (n - s.windowStart))
    (hleft : s.first ≤ x) (hright : x < cmdlineWidth) (hrow : t'.row = t.row) (hcursor : (t'.x : Int) = x) (hreads : Inside t'.reads) :
    Coherent prompt { s with lpos := n, xpos := x } t' where
  plen := h.plen
  short := h.short
  printing := h.printing
  mem := h.mem
  saved := h.saved
  echoChar := h.echoChar
  clear := h.clear
  fits := h.fits
  maxlen := h.maxlen
  row col hcol := (congrFun hrow col).trans (h.row col hcol)
  x := hcursor
  xpos := hx
  left := hleft
  right := hright
  reads := hreads
  lpos := hn

/-- **`cl_backward`** -/
theorem Coherent.backward (h : Coherent prompt s t) (hcount : count ≤ s.lpos) :
    Coherent prompt (s.clBackward count) (t.backward prompt dumb s count) := by
  have hlpos := h.lpos
  have hxpos := h.xpos
  have hright := h.right
  have hx := h.x
  have hfull : Coherent prompt (({ s with lpos := s.lpos - count } : State).clRefresh true)
    (t.refresh prompt dumb { s with lpos := s.lpos - count } true 0) :=
    .full (s := { s with lpos := s.lpos - count }) ⟨h.plen, h.short, h.printing⟩ ⟨h.mem, h.saved, h.echoChar⟩ ⟨h.clear, h.fits, h.maxlen⟩
      ((Nat.sub_le _ _).trans hlpos) h.reads 0
  unfold State.clBackward Screen.backward
  dsimp only
  split
  next => exact hfull
  next =>
    split
    next => exact hfull
    next hin =>
      have hwithin : (s.first : Int) ≤ s.xpos - count := by
        by_cases hsection : s.sectionNo = 0
        · have hstart := windowStart_zero hsection
          omega
        · have hone : s.first = 1 := if_neg hsection
          omega
      cases dumb with
      | false => exact h.moved ((Nat.sub_le _ _).trans hlpos) (by omega) hwithin (by omega) rfl (Int.toNat_of_nonneg (by omega)) h.reads
      | true =>
        obtain ⟨hrow, hback, hreads⟩ := Screen.puts_back count t
        refine h.moved ((Nat.sub_le _ _).trans hlpos) (by omega) hwithin (by omega) hrow ?_ (hreads.symm ▸ h.reads)
        show ((t.puts (List.replicate count 8)).x : Int) = _
        rw [hback]
        omega

/-- **`cl_forward`** -/
theorem Coherent.forward (h : Coherent prompt s t) (hcount : s.lpos + count ≤ s.llen) :
    Coherent prompt (s.clForward count) (t.forward prompt dumb s count) := by
  have hW : cmdlineWidth = 78 := rfl
  have hxpos := h.xpos
  have hleft := h.left
  have hright := h.right
  have hx := h.x
  unfold State.clForward Screen.forward
  dsimp only
  split
  next =>
    exact .full (s := { s with lpos := s.lpos + count }) ⟨h.plen, h.short, h.printing⟩ ⟨h.mem, h.saved, h.echoChar⟩
      ⟨h.clear, h.fits, h.maxlen⟩
      hcount h.reads 0
  next hin =>
    cases dumb with
    | false => exact h.moved hcount (by omega) (by omega) (by omega) rfl (Int.toNat_of_nonneg (by omega)) h.reads
    | true =>
      -- The characters that are put are there already.
      have hindex : ((s.lpos + count : Nat) : Int) - count = s.lpos := by omega
      obtain ⟨hrow, hput⟩ := putBuf_put (t := t) (n := count) (s := { s with lpos := s.lpos + count }) (h.toPrinted.legible h.fits)
        (s.lpos : Int) (fun k hk => by show _ ∧ _ < (s.llen : Int); omega) (by omega)
      show Coherent prompt _ (t.putBuf { s with lpos := s.lpos + count } (((s.lpos + count : Nat) : Int) - count) count)
      rw [hindex]
      refine h.moved hcount (by omega) (by omega) (by omega) ?_ (by rw [hput]; omega)
        (putBuf_reads h.reads (by omega) (by show _ ≤ (s.llen : Int); omega))
      rw [hrow]
      funext col
      by_cases hcol : t.x ≤ col ∧ col < t.x + count
      · obtain ⟨k, rfl⟩ := Nat.exists_eq_add_of_le hcol.1
        have hk : k < (({ s with lpos := s.lpos + count } : State).shownFrom s.lpos count).length := by
          rw [shownFrom_length]
          omega
        have hcell : s.windowStart + (((t.x + k : Nat) : Int) - s.first) = s.lpos + k := by omega
        rw [Memory.store_at hk, shownFrom_getElem _ _ hk, h.row _ (by omega), State.cellAt, if_neg (by omega), hcell]
        dsimp only
        rw [if_pos (by omega), if_pos (by omega)]
        rfl
      · obtain hlt | hge := Nat.lt_or_ge col t.x
        · exact Memory.store_of_lt hlt
        · exact Memory.store_of_ge (by rw [shownFrom_length]; omega)

/-- A part of the line is drawn again. -/
theorem Coherent.part (h : Coherent prompt s t) (hprinted : Printed s') (hroomy : Roomy s') (haround : Around s s' len)
    (hlen : s.xpos + len ≤ cmdlineWidth)
    (hright : s'.first + (s'.lpos - s'.windowStart) < cmdlineWidth) :
    Coherent prompt (s'.clRefresh false) (t.refresh prompt dumb s' false len) where
  plen := haround.plen.trans h.plen
  short := h.short
  printing := h.printing
  toPrinted := hprinted.screen (clRefresh_screen s' false)
  toRoomy := hroomy.screen (clRefresh_screen s' false)
  toShown := refresh_part h.toShown h.toPrompted (hprinted.legible hroomy.fits) haround hlen hright
  lpos := haround.inside.2.2

/-! ### What can get into the line -/

theorem store_printing {m : Nat → Byte} {b : Nat} (hm : ∀ i < b, Printing (m i)) (hl : ∀ c ∈ l, Printing c) (a : Nat) :
    ∀ i < b, Printing (Memory.store m a l i) := by
  intro i hi
  unfold Memory.store
  split
  next =>
    obtain hlt | hge := Nat.lt_or_ge (i - a) l.length
    · rw [← List.getElem_eq_getD (h := hlt)]
      exact hl _ (List.getElem_mem hlt)
    · rw [List.getD, List.getElem?_eq_none hge]
      exact hm i hi
  next => exact hm i hi

theorem slice_printing {m : Nat → Byte} {b : Nat} (hm : ∀ i < b, Printing (m i)) {p n : Nat} (hn : p + n ≤ b) :
    ∀ c ∈ Memory.slice m p n, Printing c := by
  intro c hc
  obtain ⟨k, hk, rfl⟩ := List.mem_map.1 hc
  have hlt := List.mem_range.1 hk
  exact hm _ (by omega)

theorem move_printing {m : Nat → Byte} {b : Nat} (hm : ∀ i < b, Printing (m i)) (dst : Nat) {src n : Nat} (hn : src + n ≤ b) :
    ∀ i < b, Printing (StringPool.move m dst src n i) :=
  store_printing hm (slice_printing hm hn) dst

theorem read_get {m : Nat → Byte} {n p k : Nat} (hk : k < (StringPool.read 0 m n p).length) : (StringPool.read 0 m n p)[k] = m (p + k) := by
  induction n generalizing p k with
  | zero => cases hk
  | succ n ih =>
    rw [StringPool.read] at hk
    simp only [StringPool.read]
    split at hk
    next => cases hk
    next hc =>
      simp only [if_neg hc]
      cases k with
      | zero => rfl
      | succ k =>
        rw [List.getElem_cons_succ, ih, Nat.add_assoc, Nat.add_comm 1]

/-- A string lies in the memory that it is read from. -/
theorem mem_str {m : Nat → Byte} {p : Nat} (hc : c ∈ str m p) : ∃ k < (str m p).length, m (p + k) = c ∧ ∀ j ≤ k, m (p + j) ≠ 0 := by
  obtain ⟨k, hk, rfl⟩ := List.getElem_of_mem hc
  refine ⟨k, hk, (read_get hk).symm, fun j hj hzero => ?_⟩
  have hlt : j < (str m p).length := Nat.lt_of_le_of_lt hj hk
  have hcell : (str m p)[j] = m (p + j) := read_get hlt
  exact str_chars m p ((hcell.trans hzero) ▸ List.getElem_mem hlt)

theorem str_printing {m : Nat → Byte} {b : Nat} (hm : ∀ i < b, Printing (m i)) {p : Nat} (hn : p + (str m p).length ≤ b) :
    ∀ c ∈ str m p, Printing c := by
  intro c hc
  obtain ⟨k, hk, rfl, -⟩ := mem_str hc
  exact hm _ (by omega)

theorem holds_printing {m : Nat → Byte} {b p : Nat} (hm : ∀ i < b, Printing (m i)) (h : Holds 0 m p l) (hn : p + l.length ≤ b) :
    ∀ c ∈ l, Printing c := by
  intro c hc
  obtain ⟨k, hk, rfl⟩ := List.getElem_of_mem hc
  rw [← h.getElem hk]
  exact hm _ (by omega)

theorem zero_printing : Printing 0 := by decide

theorem append_zero_printing (hl : ∀ c ∈ l, Printing c) : ∀ c ∈ l ++ [0], Printing c := by
  intro c hc
  obtain hc | hc := List.mem_append.1 hc
  · exact hl c hc
  · exact List.mem_singleton.1 hc ▸ zero_printing

theorem insertedMem_printing (hm : ∀ i < completionBuf, Printing (s.mem i)) (hfits : s.llen ≤ maxCmdline) (hlpos : s.lpos ≤ s.llen)
    (hu : ∀ c ∈ u, Printing c) : ∀ i < completionBuf, Printing (insertedMem s u i) := by
  have hcompletion := completionBuf_eq
  have hmax : maxCmdline = 1600 := rfl
  unfold insertedMem
  split
  next => exact store_printing hm (append_zero_printing hu) _
  next => exact store_printing (move_printing hm _ (by omega)) hu _

theorem insertedMem_before {i : Nat} (hi : i < s.lpos) : insertedMem s u (cmdlineBuf + i) = s.mem (cmdlineBuf + i) := by
  unfold insertedMem
  split
  next => exact Memory.store_of_lt (by omega)
  next =>
    rw [Memory.store_of_lt (by omega)]
    exact Memory.store_of_lt (by omega)

theorem Screen.insert_eq (h : s.pending = false) (t : Screen) (u : List Byte) : t.insert prompt dumb s u =
    let s₁ : State := { s with mem := insertedMem s u, llen := s.llen + u.length, lpos := s.lpos + u.length }
    if (s.llen + u.length : Int) < s.maxlen then
      if s.xpos + u.length ≥ cmdlineWidth then t.refresh prompt dumb s₁ true 0
      else if s.xpos + u.length + (s.llen + u.length : Nat) - (s.lpos + u.length : Nat) > cmdlineWidth then
        t.refresh prompt dumb s₁ false (cmdlineWidth - s.xpos).toNat
      else t.refresh prompt dumb s₁ false (u.length + (s.llen + u.length) - (s.lpos + u.length))
    else t := by
  unfold Screen.insert insertedMem
  simp only [moved_clear h, copied_clear h]

/-- **`cl_insert`** -/
theorem Coherent.insert (h : Coherent prompt s t) (hu : (s.llen + u.length : Int) < s.maxlen → ∀ c ∈ u, Printing c) :
    Coherent prompt (s.clInsert u) (t.insert prompt dumb s u) := by
  have hlpos := h.lpos
  have hxpos := h.xpos
  have hright := h.right
  rw [clInsert_eq h.clear, Screen.insert_eq h.clear]
  dsimp only
  split
  next hroom =>
    have hmaxlen := h.maxlen
    have hprinted : Printed { s with mem := insertedMem s u, llen := s.llen + u.length, lpos := s.lpos + u.length } :=
      ⟨insertedMem_printing h.mem h.fits hlpos (hu hroom), h.saved, h.echoChar⟩
    have hroomy : Roomy { s with mem := insertedMem s u, llen := s.llen + u.length, lpos := s.lpos + u.length } :=
      ⟨h.clear, by show s.llen + u.length ≤ maxCmdline; omega, hmaxlen⟩
    by_cases hfull : s.xpos + u.length ≥ cmdlineWidth
    · rw [if_pos hfull, decide_eq_true hfull]
      exact .full (s := { s with mem := insertedMem s u, llen := s.llen + u.length, lpos := s.lpos + u.length })
        ⟨h.plen, h.short, h.printing⟩ hprinted
        hroomy (Nat.add_le_add_right hlpos _) h.reads 0
    · have haround {len : Nat} (hbehind : s.xpos + len = cmdlineWidth ∨ s.llen ≤ s.lpos + len ∧ s.llen + u.length ≤ s.lpos + len)
          (hcursor : s.lpos + u.length ≤ s.lpos + len) :
          Around s { s with mem := insertedMem s u, llen := s.llen + u.length, lpos := s.lpos + u.length } len :=
        ⟨rfl, rfl, rfl, rfl, fun _ hi => insertedMem_before hi, ⟨hlpos, Nat.le_add_right _ _, Nat.add_le_add_right hlpos _⟩, hbehind,
          hcursor⟩
      have hcursor : (s.first : Int) + ((s.lpos + u.length : Nat) - s.windowStart) < cmdlineWidth := by omega
      rw [if_neg hfull, decide_eq_false hfull]
      split
      next => exact h.part hprinted hroomy (haround (.inl (by omega)) (by omega)) (by omega) hcursor
      next => exact h.part hprinted hroomy (haround (.inr (by omega)) (by omega)) (by omega) hcursor
  next => exact h

/-- **`cl_delete`** -/
theorem Coherent.delete (h : Coherent prompt s t) (hcount : s.lpos + count ≤ s.llen) :
    Coherent prompt (s.clDelete count) (t.delete prompt dumb s count) := by
  have hxpos := h.xpos
  have hright := h.right
  have hfits := h.fits
  have hcompletion : completionBuf = cmdlineBuf + 7 * maxCmdline := by decide
  have hmax : maxCmdline = 1600 := rfl
  obtain ⟨m, hm⟩ : ∃ m, m = s.moved (cmdlineBuf + s.lpos) (cmdlineBuf + s.lpos + count) (s.llen - count + 1) := ⟨_, rfl⟩
  have hmoved : m = StringPool.move s.mem (cmdlineBuf + s.lpos) (cmdlineBuf + s.lpos + count) (s.llen - count + 1) :=
    hm.trans (moved_clear h.clear _ _ _)
  have hprinted : Printed { s with mem := m, llen := s.llen - count } :=
    ⟨hmoved ▸ move_printing h.mem _ (by omega), h.saved, h.echoChar⟩
  have hroomy : Roomy { s with mem := m, llen := s.llen - count } := ⟨h.clear, (Nat.sub_le _ _).trans hfits, h.maxlen⟩
  have haround {len : Nat} (hbehind : s.xpos + len = cmdlineWidth ∨ s.llen ≤ s.lpos + len ∧ s.llen - count ≤ s.lpos + len) :
      Around s { s with mem := m, llen := s.llen - count } len :=
    ⟨rfl, rfl, rfl, rfl, fun _ hi => hmoved ▸ Memory.store_of_lt (by omega),
      ⟨h.lpos, Nat.le_refl _, by show s.lpos ≤ s.llen - count; omega⟩, hbehind,
      Nat.le_add_right _ _⟩
  have hcursor : (s.first : Int) + (s.lpos - s.windowStart) < cmdlineWidth := by omega
  unfold State.clDelete Screen.delete
  dsimp only
  rw [← hm]
  split
  next => exact h.part hprinted hroomy (haround (.inl (by omega))) (by omega) hcursor
  next => exact h.part hprinted hroomy (haround (.inr (by omega))) (by omega) hcursor

end TrustedGrub.Line
