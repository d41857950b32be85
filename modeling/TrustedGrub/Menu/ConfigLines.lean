import TrustedGrub.Menu.Config
import Mathlib.Data.List.Induction

/-!
# Logical lines of the configuration

What the calls of `get_line_from_config` return, one after the other, is held against the logical
lines of the stream. A line that is joined behind the place where it is cut has the last character
that was kept overwritten.
-/

namespace TrustedGrub.Menu
open Fips180 (Byte)

/-! ## Logical lines -/

/-- A character, and whether it is the blank that a backslash in front of a newline is read as. -/
structure Letter where
  char : Byte
  joins : Bool
  deriving DecidableEq

/-- The stream without carriage returns, and with blanks for tabs. -/
def clean (stream : List Byte) : List Byte := (stream.filter (· ≠ 0x0D)).map fun c => if c = 0x09 then 0x20 else c

def letters : List Byte → List Letter
  | [] => []
  | [c] => [⟨c, false⟩]
  | c :: d :: text => if c = 0x5C ∧ d = 0x0A then ⟨0x20, true⟩ :: letters text else ⟨c, false⟩ :: letters (d :: text)

def Letter.isNewline (l : Letter) : Bool := l.char = 0x0A

def Letter.isBlank (l : Letter) : Bool := l.char = 0x20

/-- A line without its leading blanks counts if it is not empty and no comment. -/
def counts : List Letter → Bool
  | [] => false
  | l :: _ => l.char ≠ 0x23

def logicalLines (stream : List Byte) : List (List Letter) :=
  (((letters (clean stream)).splitOnP Letter.isNewline).map fun line => line.dropWhile Letter.isBlank).filter counts

/-- The first `maxlen` characters. -/
def cut (maxlen : Nat) (line : List Letter) : List Byte := (line.map Letter.char).take maxlen

/-- Where a line is joined behind its first `maxlen` characters, the last of these is a blank. -/
def Early (maxlen : Nat) (line : List Letter) : Prop :=
  (∃ l ∈ line.drop maxlen, l.joins = true) → (getElem? line (maxlen - 1)).map Letter.char = some 0x20

/-! ## Carriage returns and tabs -/

variable {maxlen : Nat} {stream text : List Byte} {c : Byte} {r : Reader}

theorem next_cr (maxlen : Nat) (r : Reader) : r.next maxlen 0x0D = (r, false) := by
  unfold Reader.next
  rw [if_pos rfl]

theorem next_tab (maxlen : Nat) (r : Reader) : r.next maxlen 0x09 = r.next maxlen 0x20 := by
  have htab : (0x09 : Byte) ≠ 0x0D := by decide
  have hblank : (0x20 : Byte) ≠ 0x0D := by decide
  have hother : (0x20 : Byte) ≠ 0x09 := by decide
  unfold Reader.next
  simp only [if_neg htab, if_neg hblank, if_true, if_neg hother]

theorem getLine_clean (maxlen : Nat) (stream : List Byte) (r : Reader) :
    (getLine maxlen (clean stream) r).1 = (getLine maxlen stream r).1 ∧
      (getLine maxlen (clean stream) r).2 = clean (getLine maxlen stream r).2 := by
  induction stream generalizing r with
  | nil => exact ⟨rfl, rfl⟩
  | cons c stream ih =>
    by_cases hcr : c = 0x0D
    · subst hcr
      have hskip : clean (0x0D :: stream) = clean stream := by simp [clean]
      rw [hskip, getLine, next_cr]
      exact ih r
    · have hkeep : clean (c :: stream) = (if c = 0x09 then 0x20 else c) :: clean stream := by
        simp only [clean, List.filter_cons, ne_eq, hcr, not_false_eq_true, decide_true, if_true, List.map_cons]
      have hnext : r.next maxlen (if c = 0x09 then 0x20 else c) = r.next maxlen c := by
        split_ifs with htab
        · rw [htab, next_tab]
        · rfl
      rw [hkeep, getLine, getLine, hnext]
      dsimp only
      split_ifs
      · exact ⟨rfl, rfl⟩
      · exact ih _

theorem readLines_clean (maxlen : Nat) (stream : List Byte) : readLines maxlen (clean stream) = readLines maxlen stream := by
  fun_induction readLines maxlen stream with
  | case1 stream hend =>
    rw [readLines, (getLine_clean maxlen stream .start).1]
    exact if_pos hend
  | case2 stream hline ih =>
    obtain ⟨hfirst, hrest⟩ := getLine_clean maxlen stream .start
    rw [readLines, hfirst, hrest, ih]
    exact if_neg hline

theorem mem_clean (h : c ∈ clean stream) : c ≠ 0x0D ∧ c ≠ 0x09 := by
  obtain ⟨d, hd, rfl⟩ := List.mem_map.1 h
  have hcr : d ≠ 0x0D := of_decide_eq_true (List.mem_filter.1 hd).2
  split_ifs with htab
  · decide
  · exact ⟨hcr, htab⟩

/-! ## Letter by letter -/

/-- What is kept of a line, and whether it is a comment. -/
structure Line where
  cmdline : List Byte
  comment : Bool

def Line.start : Line := ⟨[], false⟩

variable {s : Line} {l : Letter} {line : List Letter}

/-- The last character is overwritten with a blank, if it is one behind which nothing has been kept. -/
def overwrite (maxlen : Nat) (cmdline : List Byte) : List Byte :=
  if cmdline.dropLast = [] then [] else if cmdline.dropLast.length < maxlen then cmdline.dropLast ++ [0x20] else cmdline.dropLast

def Line.put (maxlen : Nat) (s : Line) (l : Letter) : Line :=
  if s.comment then s
  else if s.cmdline = [] then
    if l.char = 0x23 then ⟨[], true⟩ else if l.isBlank then s else ⟨[l.char], false⟩
  else if s.cmdline.length < maxlen then ⟨s.cmdline ++ [l.char], false⟩
  else if l.joins then ⟨overwrite maxlen s.cmdline, false⟩
  else s

/-- The line that has been read, unless there is none. -/
def Line.emit (s : Line) : List (List Byte) := if s.cmdline = [] then [] else [s.cmdline]

/-- The lines that come of the letters. -/
def outputs (maxlen : Nat) : Line → List Letter → List (List Byte)
  | s, [] => s.emit
  | s, l :: ls => if l.isNewline then s.emit ++ outputs maxlen .start ls else outputs maxlen (s.put maxlen l) ls

def Reader.kept (r : Reader) : Line := ⟨r.cmdline, r.comment⟩

/-- The reader at a place of a clean text. -/
structure Reader.At (r : Reader) (text : List Byte) : Prop where
  clean : ∀ c ∈ text, c ≠ 0x0D ∧ c ≠ 0x09
  comment : r.comment = true → r.cmdline = []
  literal : r.literal = true → text.head? ≠ some 0x0A

theorem Reader.next_newline (maxlen : Nat) (hcomment : r.comment = true → r.cmdline = []) (hliteral : r.literal = false) :
    r.next maxlen 0x0A = (⟨r.cmdline, false, false⟩, decide (r.cmdline ≠ [])) := by
  have hcr : (0x0A : Byte) ≠ 0x0D := by decide
  have htab : (0x0A : Byte) ≠ 0x09 := by decide
  obtain ⟨cmdline, literal, comment⟩ := r
  obtain rfl : literal = false := hliteral
  unfold Reader.next
  simp only [if_neg hcr, if_neg htab]
  cases comment with
  | true =>
    obtain rfl : cmdline = [] := hcomment rfl
    rfl
  | false =>
    cases cmdline with
    | nil => rfl
    | cons d cmdline => rfl

theorem Reader.next_char (maxlen : Nat) (hcr : c ≠ 0x0D) (htab : c ≠ 0x09) (hnewline : c ≠ 0x0A)
    (hcomment : r.comment = true → r.cmdline = []) :
    ∃ r', r.next maxlen c = (r', false) ∧ r'.kept = r.kept.put maxlen ⟨c, false⟩ ∧ r'.literal = decide (c = 0x5C) := by
  obtain ⟨cmdline, literal, comment⟩ := r
  unfold Reader.next Line.put Reader.kept
  simp only [if_neg hcr, if_neg htab, hnewline, decide_false, Bool.and_false, Bool.false_eq_true, if_false, Letter.isBlank,
    decide_eq_true_eq]
  cases comment with
  | true =>
    simp only [if_true, ne_eq, hnewline, not_false_eq_true, decide_true]
    exact ⟨_, rfl, rfl, rfl⟩
  | false =>
    simp only [Bool.false_eq_true, if_false]
    by_cases hfirst : cmdline = []
    · simp only [if_pos hfirst]
      by_cases hhash : c = 0x23
      · simp only [if_pos hhash]
        exact ⟨_, rfl, by rw [hfirst], rfl⟩
      · simp only [if_neg hhash]
        by_cases hblank : c = 0x20
        · simp only [hblank, ne_eq, if_true, not_true_eq_false, false_and, if_false]
          exact ⟨_, rfl, rfl, rfl⟩
        · simp only [ne_eq, hblank, if_false, hnewline, not_false_eq_true, and_self, if_true]
          exact ⟨_, rfl, rfl, rfl⟩
    · simp only [if_neg hfirst]
      by_cases hroom : cmdline.length < maxlen
      · simp only [if_pos hroom]
        exact ⟨_, rfl, rfl, rfl⟩
      · simp only [if_neg hroom]
        exact ⟨_, rfl, rfl, rfl⟩

/-- A backslash and a newline. -/
theorem Reader.next_join (maxlen : Nat) (hcomment : r.comment = true → r.cmdline = []) :
    ∃ r₁ r₂, r.next maxlen 0x5C = (r₁, false) ∧ r₁.next maxlen 0x0A = (r₂, false) ∧
      r₂.kept = r.kept.put maxlen ⟨0x20, true⟩ ∧ r₂.literal = false := by
  obtain ⟨cmdline, literal, comment⟩ := r
  cases comment with
  | true =>
    obtain rfl : cmdline = [] := hcomment rfl
    cases literal <;> exact ⟨_, _, rfl, rfl, rfl, rfl⟩
  | false =>
    cases cmdline with
    | nil => cases literal <;> exact ⟨_, _, rfl, rfl, rfl, rfl⟩
    | cons d cmdline =>
      by_cases hroom : (d :: cmdline).length < maxlen
      · refine ⟨⟨d :: cmdline ++ [0x5C], true, false⟩, ⟨d :: cmdline ++ [0x20], false, false⟩, ?_, ?_, ?_, rfl⟩
        · cases literal <;> exact if_pos hroom
        · have hdrop : (d :: cmdline ++ [0x5C]).dropLast = d :: cmdline := List.dropLast_concat
          have hnext : Reader.next maxlen 0x0A ⟨d :: cmdline ++ [0x5C], true, false⟩ =
              Reader.next maxlen 0x20 ⟨(d :: cmdline ++ [0x5C]).dropLast, false, false⟩ := rfl
          rw [hnext, hdrop]
          exact if_pos hroom
        · exact (if_pos hroom).symm
      · refine ⟨⟨d :: cmdline, true, false⟩, ⟨overwrite maxlen (d :: cmdline), false, false⟩, ?_, ?_, ?_, rfl⟩
        · cases literal <;> exact if_neg hroom
        · have hnext :
              Reader.next maxlen 0x0A ⟨d :: cmdline, true, false⟩ = Reader.next maxlen 0x20 ⟨(d :: cmdline).dropLast, false, false⟩ := rfl
          rw [hnext, overwrite]
          generalize (d :: cmdline).dropLast = kept
          cases kept with
          | nil => rfl
          | cons e kept =>
            rw [if_neg (List.cons_ne_nil e kept)]
            by_cases hshort : (e :: kept).length < maxlen
            · rw [if_pos hshort]
              exact if_pos hshort
            · rw [if_neg hshort]
              exact if_neg hshort
        · exact (if_neg hroom).symm

/-! ## Line by line -/

/-- The lines that are read from a place in the middle of one. -/
def readFrom (maxlen : Nat) (stream : List Byte) (r : Reader) : List (List Byte) :=
  if (getLine maxlen stream r).1 = [] then [] else (getLine maxlen stream r).1 :: readLines maxlen (getLine maxlen stream r).2

theorem readLines_eq_readFrom (maxlen : Nat) (stream : List Byte) : readLines maxlen stream = readFrom maxlen stream .start := by
  rw [readLines, readFrom]

theorem readFrom_pass {r' : Reader} (h : r.next maxlen c = (r', false)) : readFrom maxlen (c :: text) r = readFrom maxlen text r' := by
  have hline : getLine maxlen (c :: text) r = getLine maxlen text r' := by
    rw [getLine, h]
    rfl
  rw [readFrom, hline, readFrom]

theorem readFrom_newline (h : r.comment = true → r.cmdline = []) (hliteral : r.literal = false) :
    readFrom maxlen (0x0A :: text) r = r.kept.emit ++ readFrom maxlen text .start := by
  have hnext := Reader.next_newline maxlen h hliteral
  unfold Line.emit Reader.kept
  by_cases hempty : r.cmdline = []
  · have hpass : r.next maxlen 0x0A = (.start, false) := by
      rw [hnext, hempty]
      rfl
    rw [readFrom_pass hpass, if_pos hempty, List.nil_append]
  · have hline : getLine maxlen (0x0A :: text) r = (r.cmdline, text) := by
      rw [getLine, hnext]
      simp only [ne_eq, hempty, not_false_eq_true, decide_true, if_true]
    rw [readFrom, hline, if_neg hempty, if_neg hempty, readLines_eq_readFrom]
    rfl

theorem Line.put_comment (maxlen : Nat) (hs : s.comment = true → s.cmdline = []) (l : Letter) :
    (s.put maxlen l).comment = true → (s.put maxlen l).cmdline = [] := by
  unfold Line.put
  split_ifs with hcomment hfirst hhash hblank
  · exact fun _ => hs hcomment
  · exact fun _ => rfl
  · exact fun _ => hfirst
  · simp
  · simp
  · simp
  · exact fun h => absurd h hcomment

theorem readFrom_nil (maxlen : Nat) (r : Reader) : readFrom maxlen [] r = r.kept.emit := by
  have hend (r : Reader) : getLine maxlen [] r = (r.cmdline, []) := by rw [getLine]
  have hnone : readLines maxlen [] = [] := by
    rw [readLines, hend]
    exact if_pos rfl
  rw [readFrom, hend, hnone]
  rfl

theorem Reader.At.start (h : ∀ c ∈ text, c ≠ 0x0D ∧ c ≠ 0x09) : Reader.At .start text := by
  constructor
  · exact h
  · simp [Reader.start]
  · simp [Reader.start]

/-- A character that is read as it is. -/
theorem readFrom_letter (h : r.At (c :: text)) (hplain : c = 0x5C → text.head? ≠ some 0x0A)
    (hrest : ∀ r' : Reader, r'.At text → readFrom maxlen text r' = outputs maxlen r'.kept (letters text)) :
    readFrom maxlen (c :: text) r = outputs maxlen r.kept (⟨c, false⟩ :: letters text) := by
  obtain ⟨⟨hcr, htab⟩, hclean⟩ := List.forall_mem_cons.1 h.clean
  rw [outputs]
  by_cases hnewline : c = 0x0A
  · subst hnewline
    have hliteral : r.literal = false := by
      cases hr : r.literal with
      | false => rfl
      | true => exact absurd rfl (h.literal hr)
    have hends : Letter.isNewline ⟨0x0A, false⟩ = true := rfl
    rw [readFrom_newline h.comment hliteral, if_pos hends, hrest .start (.start hclean)]
    rfl
  · obtain ⟨r', hnext, hkept, hliteral⟩ := Reader.next_char maxlen hcr htab hnewline h.comment
    have hgoes : ¬ Letter.isNewline ⟨c, false⟩ = true := fun hends => hnewline (of_decide_eq_true hends)
    rw [readFrom_pass hnext, if_neg hgoes, ← hkept]
    apply hrest
    constructor
    · exact hclean
    · have hput := Line.put_comment maxlen (s := r.kept) h.comment ⟨c, false⟩
      rw [← hkept] at hput
      exact hput
    · intro hback
      rw [hliteral] at hback
      exact hplain (of_decide_eq_true hback)

/-- What is read from a clean text goes letter by letter. -/
theorem readFrom_outputs (h : r.At text) : readFrom maxlen text r = outputs maxlen r.kept (letters text) := by
  induction text using letters.induct generalizing r with
  | case1 =>
    rw [letters, outputs, readFrom_nil]
  | case2 c =>
    rw [letters]
    apply readFrom_letter h
    · simp
    · intro r' _
      rw [letters, outputs, readFrom_nil]
  | case3 c d text hjoin ih =>
    obtain ⟨rfl, rfl⟩ := hjoin
    obtain ⟨r₁, r₂, hfirst, hsecond, hkept, hliteral⟩ := Reader.next_join maxlen h.comment
    have hgoes : ¬ Letter.isNewline ⟨0x20, true⟩ = true := by decide
    rw [letters, if_pos ⟨rfl, rfl⟩, outputs, if_neg hgoes, readFrom_pass hfirst, readFrom_pass hsecond, ← hkept]
    apply ih
    constructor
    · exact fun c hc => h.clean c (List.mem_cons_of_mem _ (List.mem_cons_of_mem _ hc))
    · have hput := Line.put_comment maxlen (s := r.kept) h.comment ⟨0x20, true⟩
      rw [← hkept] at hput
      exact hput
    · simp [hliteral]
  | case4 c d text hother ih =>
    rw [letters, if_neg hother]
    apply readFrom_letter h
    · intro hback hnewline
      exact hother ⟨hback, Option.some.inj hnewline⟩
    · exact fun r' h' => ih h'

/-! ## The lines -/

theorem outputs_split (maxlen : Nat) (s : Line) (ls : List Letter) :
    ∃ first others, ls.splitOnP Letter.isNewline = first :: others ∧
      outputs maxlen s ls = (first.foldl (Line.put maxlen) s).emit ++ others.flatMap fun line =>
        (line.foldl (Line.put maxlen) .start).emit := by
  induction ls generalizing s with
  | nil => exact ⟨[], [], List.splitOnP_nil .., by simp [outputs]⟩
  | cons l ls ih =>
    rw [List.splitOnP_cons_eq_if_modifyHead, outputs]
    split_ifs
    · obtain ⟨first, others, hsplit, houtputs⟩ := ih .start
      refine ⟨[], first :: others, by rw [hsplit], ?_⟩
      rw [houtputs, List.flatMap_cons]
      rfl
    · obtain ⟨first, others, hsplit, houtputs⟩ := ih (s.put maxlen l)
      exact ⟨l :: first, others, by rw [hsplit, List.modifyHead_cons], houtputs⟩

/-- The calls read the lines between the newlines. -/
theorem readLines_flatMap (maxlen : Nat) (stream : List Byte) :
    readLines maxlen stream =
      ((letters (clean stream)).splitOnP Letter.isNewline).flatMap fun line => (line.foldl (Line.put maxlen) .start).emit := by
  obtain ⟨first, others, hsplit, houtputs⟩ := outputs_split maxlen .start (letters (clean stream))
  rw [← readLines_clean, readLines_eq_readFrom, readFrom_outputs (.start fun c hc => mem_clean hc), hsplit, List.flatMap_cons]
  exact houtputs

/-- The line is joined behind its first `maxlen` characters. -/
def late (maxlen : Nat) (line : List Letter) : Bool := (line.drop maxlen).any Letter.joins

/-- What is kept of a line. -/
def written (maxlen : Nat) (line : List Letter) : List Byte :=
  if late maxlen line then (cut maxlen line).set (maxlen - 1) 0x20 else cut maxlen line

theorem length_cut (maxlen : Nat) (line : List Letter) : (cut maxlen line).length = min maxlen line.length := by
  rw [cut, List.length_take, List.length_map]

theorem length_written (maxlen : Nat) (line : List Letter) : (written maxlen line).length = min maxlen line.length := by
  unfold written
  split_ifs
  · rw [List.length_set, length_cut]
  · rw [length_cut]

theorem cut_concat (maxlen : Nat) (line : List Letter) (l : Letter) :
    cut maxlen (line ++ [l]) = if line.length < maxlen then cut maxlen line ++ [l.char] else cut maxlen line := by
  unfold cut
  rw [List.map_append, List.map_singleton, List.take_append, List.length_map]
  split_ifs with hroom
  · obtain ⟨k, hk⟩ : ∃ k, maxlen - line.length = k + 1 := ⟨maxlen - line.length - 1, by omega⟩
    rw [hk]
    simp
  · rw [Nat.sub_eq_zero_of_le (Nat.le_of_not_lt hroom), List.take_zero, List.append_nil]

theorem late_concat (maxlen : Nat) (line : List Letter) (l : Letter) :
    late maxlen (line ++ [l]) = (late maxlen line || (decide (maxlen ≤ line.length) && l.joins)) := by
  unfold late
  rw [List.drop_append, List.any_append]
  by_cases hfull : maxlen ≤ line.length
  · rw [Nat.sub_eq_zero_of_le hfull]
    simp [hfull]
  · obtain ⟨k, hk⟩ : ∃ k, maxlen - line.length = k + 1 := ⟨maxlen - line.length - 1, by omega⟩
    rw [hk]
    simp [hfull]

theorem late_of_append {ls : List Letter} (h : late maxlen (line ++ ls) = false) : late maxlen line = false := by
  unfold late at h ⊢
  rw [List.drop_append, List.any_append, Bool.or_eq_false_iff] at h
  exact h.1

theorem overwrite_eq_set {kept : List Byte} (hfull : kept.length = maxlen) (htwo : 2 ≤ maxlen) :
    overwrite maxlen kept = kept.set (maxlen - 1) 0x20 := by
  obtain rfl | ⟨front, d, rfl⟩ := List.eq_nil_or_concat kept
  · rw [List.length_nil] at hfull
    omega
  · rw [List.length_concat] at hfull
    have hfront : front ≠ [] := List.ne_nil_of_length_pos (by omega)
    have hroom : front.length < maxlen := by omega
    have hlast : maxlen - 1 = front.length := by omega
    rw [List.concat_eq_append, overwrite, List.dropLast_concat, if_neg hfront, if_pos hroom, hlast,
      List.set_append_right _ _ (Nat.le_refl _),
      Nat.sub_self]
    rfl

/-- One more letter of a line. For one character only, the line must not be joined behind it. -/
theorem put_written (hpos : 1 ≤ maxlen) (hne : line ≠ []) (h : 2 ≤ maxlen ∨ late maxlen (line ++ [l]) = false) :
    Line.put maxlen ⟨written maxlen line, false⟩ l = ⟨written maxlen (line ++ [l]), false⟩ := by
  have hlength := length_written maxlen line
  have hline := List.length_pos_of_ne_nil hne
  have hwritten : written maxlen line ≠ [] := List.ne_nil_of_length_pos (by omega)
  have hlate := late_concat maxlen line l
  have hcut := cut_concat maxlen line l
  unfold Line.put
  simp only [Bool.false_eq_true, if_false, if_neg hwritten, hlength]
  by_cases hroom : line.length < maxlen
  · have hearly : late maxlen line = false := by
      unfold late
      rw [List.drop_of_length_le (by omega)]
      rfl
    have hearly' : late maxlen (line ++ [l]) = false := by simp [hlate, hearly, Nat.not_le.2 hroom]
    have hshort : min maxlen line.length < maxlen := by omega
    unfold written
    simp only [if_pos hshort, hearly, hearly', Bool.false_eq_true, if_false, hcut, if_pos hroom]
  · have hfull : ¬ min maxlen line.length < maxlen := by omega
    have hle : maxlen ≤ line.length := Nat.le_of_not_lt hroom
    rw [if_neg hfull]
    rw [if_neg hroom] at hcut
    cases hjoins : l.joins with
    | false =>
      have hsame : late maxlen (line ++ [l]) = late maxlen line := by simp [hlate, hjoins]
      unfold written
      rw [hsame, hcut]
      rfl
    | true =>
      have hbehind : late maxlen (line ++ [l]) = true := by simp [hlate, hjoins, hle]
      have htwo : 2 ≤ maxlen := h.resolve_right (by simp [hbehind])
      rw [if_pos rfl, overwrite_eq_set (by omega) htwo]
      unfold written
      cases late maxlen line with
      | false => simp only [hbehind, hcut, Bool.false_eq_true, if_true, if_false]
      | true => simp only [hbehind, hcut, if_true, List.set_set]

theorem foldl_written {ls : List Letter} (hpos : 1 ≤ maxlen) (hne : line ≠ []) (h : 2 ≤ maxlen ∨ late maxlen (line ++ ls) = false) :
    ls.foldl (Line.put maxlen) ⟨written maxlen line, false⟩ = ⟨written maxlen (line ++ ls), false⟩ := by
  induction ls generalizing line with
  | nil => rw [List.foldl_nil, List.append_nil]
  | cons l ls ih =>
    have happend : line ++ l :: ls = line ++ [l] ++ ls := by simp
    rw [happend] at h ⊢
    rw [List.foldl_cons, put_written hpos hne (h.imp_right late_of_append)]
    exact ih (by simp) h

theorem foldl_comment (ls : List Letter) : ls.foldl (Line.put maxlen) ⟨[], true⟩ = ⟨[], true⟩ := by
  induction ls with
  | nil => rfl
  | cons l ls ih => exact ih

/-- A line that begins with a character that is kept. -/
theorem foldl_start {ls : List Letter} (hblank : l.isBlank = false) (hhash : l.char ≠ 0x23) (hpos : 1 ≤ maxlen)
    (h : 2 ≤ maxlen ∨ late maxlen (l :: ls) = false) :
    (l :: ls).foldl (Line.put maxlen) .start = ⟨written maxlen (l :: ls), false⟩ := by
  have hone : written maxlen [l] = [l.char] := by
    obtain ⟨k, rfl⟩ := Nat.exists_eq_add_of_le' hpos
    simp [written, late, cut]
  have hput : Line.start.put maxlen l = ⟨written maxlen [l], false⟩ := by
    rw [hone]
    unfold Line.put Line.start
    simp only [Bool.false_eq_true, if_false, if_true, if_neg hhash, hblank]
  rw [List.foldl_cons, hput, foldl_written hpos (by simp) h]
  rfl

/-- A line between newlines. -/
theorem emit_line (line : List Letter)
    (h : counts (line.dropWhile Letter.isBlank) = true → 2 ≤ maxlen ∨ 1 ≤ maxlen ∧ late maxlen (line.dropWhile Letter.isBlank) = false) :
    (line.foldl (Line.put maxlen) .start).emit =
      if counts (line.dropWhile Letter.isBlank) then [written maxlen (line.dropWhile Letter.isBlank)] else [] := by
  induction line with
  | nil => rfl
  | cons l ls ih =>
    rw [List.foldl_cons]
    cases hblank : l.isBlank with
    | true =>
      have hskip : Line.start.put maxlen l = .start := by
        have hchar : l.char = 0x20 := of_decide_eq_true hblank
        have hhash : l.char ≠ 0x23 := by
          rw [hchar]
          decide
        unfold Line.put Line.start
        simp only [Bool.false_eq_true, if_false, if_true, if_neg hhash, hblank]
      rw [List.dropWhile_cons_of_pos hblank] at h ⊢
      rw [hskip]
      exact ih h
    | false =>
      rw [List.dropWhile_cons_of_neg (by simp [hblank])] at h ⊢
      by_cases hhash : l.char = 0x23
      · have hput : Line.start.put maxlen l = ⟨[], true⟩ := by
          unfold Line.put Line.start
          simp only [Bool.false_eq_true, if_false, if_true, if_pos hhash]
        have hcomment : counts (l :: ls) = false := decide_eq_false (not_not.2 hhash)
        rw [hput, foldl_comment, hcomment]
        rfl
      · have hcounts : counts (l :: ls) = true := decide_eq_true hhash
        have hpos : 1 ≤ maxlen := (h hcounts).elim (by omega) (·.1)
        have hwritten : written maxlen (l :: ls) ≠ [] := by
          apply List.ne_nil_of_length_pos
          rw [length_written, List.length_cons]
          omega
        have hfold := foldl_start hblank hhash hpos ((h hcounts).imp_right (·.2))
        rw [List.foldl_cons] at hfold
        rw [hfold, hcounts, if_pos rfl]
        exact if_neg hwritten

/-- The lines that are read, wherever the code does not lose the place where a line begins. -/
theorem readLines_written
    (h : ∀ line ∈ logicalLines stream, 2 ≤ maxlen ∨ 1 ≤ maxlen ∧ late maxlen line = false) :
    readLines maxlen stream = (logicalLines stream).map (written maxlen) := by
  rw [readLines_flatMap]
  unfold logicalLines at h ⊢
  generalize (letters (clean stream)).splitOnP Letter.isNewline = pieces at h ⊢
  induction pieces with
  | nil => rfl
  | cons piece pieces ih =>
    rw [List.map_cons] at h ⊢
    rw [List.flatMap_cons]
    cases hcounts : counts (piece.dropWhile Letter.isBlank) with
    | true =>
      rw [List.filter_cons_of_pos hcounts] at h ⊢
      obtain ⟨hfirst, hrest⟩ := List.forall_mem_cons.1 h
      rw [emit_line piece fun _ => hfirst, if_pos hcounts, List.map_cons, ih hrest]
      rfl
    | false =>
      rw [List.filter_cons_of_neg (by simp [hcounts])] at h ⊢
      rw [emit_line piece fun hin => absurd (hcounts.symm.trans hin) Bool.false_ne_true, if_neg (by simp [hcounts]), ih h]
      rfl

/-- A logical line begins with a character that is kept. -/
theorem head_of_mem (h : line ∈ logicalLines stream) : ∃ l ls, line = l :: ls ∧ l.isBlank = false ∧ l.char ≠ 0x23 := by
  obtain ⟨hline, hcounts⟩ := List.mem_filter.1 h
  obtain ⟨piece, -, rfl⟩ := List.mem_map.1 hline
  have hhead := List.head?_dropWhile_not Letter.isBlank piece
  generalize piece.dropWhile Letter.isBlank = line at hcounts hhead
  cases line with
  | nil => exact absurd hcounts Bool.false_ne_true
  | cons l ls => exact ⟨l, ls, rfl, hhead, of_decide_eq_true hcounts⟩

/-- What is kept of a line is what it is cut to, unless a join overwrites another character than a blank. -/
theorem written_eq_cut_iff (hpos : 1 ≤ maxlen) : written maxlen line = cut maxlen line ↔ Early maxlen line := by
  have hlate : late maxlen line = true ↔ ∃ l ∈ line.drop maxlen, l.joins = true := List.any_eq_true
  unfold written Early
  rw [← hlate]
  cases hjoined : late maxlen line with
  | false => simp
  | true =>
    simp only [if_true, forall_const]
    have hlong : maxlen < line.length := by
      by_contra hshort
      obtain ⟨l, hl, -⟩ := hlate.1 hjoined
      rw [List.drop_of_length_le (Nat.le_of_not_lt hshort)] at hl
      cases hl
    have hlast : (cut maxlen line)[maxlen - 1]? = (getElem? line (maxlen - 1)).map Letter.char := by
      unfold cut
      rw [List.getElem?_take_of_lt (by omega), List.getElem?_map]
    rw [← hlast]
    constructor
    · intro hsame
      rw [← hsame, List.getElem?_set_self]
      rw [length_cut]
      omega
    · intro hblank
      apply List.ext_getElem?
      intro i
      by_cases hi : maxlen - 1 = i
      · subst hi
        rw [hblank, List.getElem?_set_self]
        rw [length_cut]
        omega
      · rw [List.getElem?_set_ne hi]

/-! ## What is read -/

/-- Each letter of the line leaves the characters that have been kept before it as they are. -/
def Keeps (maxlen : Nat) (line : List Letter) : Prop :=
  ∀ front l back, line = front ++ l :: back →
    (front.foldl (Line.put maxlen) .start).cmdline <+: ((front ++ [l]).foldl (Line.put maxlen) .start).cmdline

/-- The calls return the logical lines, each cut to its first characters with none of them altered, and a call that
returns no length is at the end of the stream. -/
structure ReadsLines (maxlen : Nat) (stream : List Byte) : Prop where
  lines : readLines maxlen stream = (logicalLines stream).map (cut maxlen)
  kept : ∀ line ∈ logicalLines stream, Keeps maxlen line
  ends : (getLine maxlen stream .start).1 = [] → (getLine maxlen stream .start).2 = []

/-- No line is joined behind the place where it is cut, unless there is a blank in front of that, and there is room for a character. -/
structure JoinedEarly (maxlen : Nat) (stream : List Byte) : Prop where
  room : maxlen = 0 → logicalLines stream = []
  early : ∀ line ∈ logicalLines stream, Early maxlen line

theorem Reader.next_ends (h : (r.next maxlen c).2 = true) : (r.next maxlen c).1.cmdline ≠ [] := by
  unfold Reader.next at h ⊢
  dsimp only at h ⊢
  generalize (if (r.literal && decide ((if c = 0x09 then 0x20 else c) = 0x0A)) = true then r.cmdline.dropLast else r.cmdline) = kept at h ⊢
  generalize (if (r.literal && decide ((if c = 0x09 then 0x20 else c) = 0x0A)) = true then 0x20 else if c = 0x09 then 0x20 else c) =
    d at h ⊢
  split_ifs at h ⊢
  assumption

theorem getLine_ends (maxlen : Nat) (stream : List Byte) (r : Reader) :
    (getLine maxlen stream r).1 = [] → (getLine maxlen stream r).2 = [] := by
  induction stream generalizing r with
  | nil => exact fun _ => rfl
  | cons c stream ih =>
    rw [getLine]
    dsimp only
    split_ifs with hended
    · exact fun hempty => absurd hempty (Reader.next_ends hended)
    · exact ih _

theorem readLines_nonempty : ∀ read ∈ readLines maxlen stream, read ≠ [] := by
  rw [readLines_flatMap]
  intro read hread
  obtain ⟨piece, -, hin⟩ := List.mem_flatMap.1 hread
  unfold Line.emit at hin
  split_ifs at hin with hempty
  · cases hin
  · rwa [List.mem_singleton.1 hin]

theorem Early.late_eq (h : Early 1 line) (hhead : ∃ l ls, line = l :: ls ∧ l.isBlank = false ∧ l.char ≠ 0x23) : late 1 line = false := by
  obtain ⟨l, ls, rfl, hblank, -⟩ := hhead
  by_contra hlate
  have hchar := h (List.any_eq_true.1 (by simpa [late] using hlate))
  exact Bool.false_ne_true (hblank.symm.trans (decide_eq_true (Option.some.inj hchar)))

theorem Early.of_append {back : List Letter} (h : Early maxlen (line ++ back)) (hpos : 1 ≤ maxlen) (hlong : maxlen ≤ line.length) :
    Early maxlen line := by
  rintro ⟨l, hl, hjoins⟩
  have hsame := h ⟨l, by
    rw [List.drop_append]
    exact List.mem_append_left _ hl, hjoins⟩
  rwa [List.getElem?_append_left (by omega)] at hsame

theorem late_of_short (h : line.length ≤ maxlen) : late maxlen line = false := by
  unfold late
  rw [List.drop_of_length_le h]
  rfl

/-- A letter leaves what is in front of it. -/
theorem Early.written_prefix {back : List Letter} (h : Early maxlen (line ++ [l] ++ back)) (hpos : 1 ≤ maxlen) :
    written maxlen line <+: written maxlen (line ++ [l]) := by
  have hcut := cut_concat maxlen line l
  by_cases hroom : line.length < maxlen
  · have hshort : (line ++ [l]).length ≤ maxlen := by
      rw [List.length_append, List.length_singleton]
      omega
    unfold written
    rw [late_of_short (Nat.le_of_lt hroom), late_of_short hshort, hcut, if_pos hroom]
    exact List.prefix_append _ _
  · have hlong : maxlen ≤ line.length := Nat.le_of_not_lt hroom
    have hlong' : maxlen ≤ (line ++ [l]).length := by
      rw [List.length_append]
      omega
    have hearly : Early maxlen (line ++ [l]) := h.of_append hpos hlong'
    have hwritten : written maxlen (line ++ [l]) = written maxlen line := by
      rw [(written_eq_cut_iff hpos).2 hearly, (written_eq_cut_iff hpos).2 (hearly.of_append hpos hlong), hcut, if_neg hroom]
    exact hwritten ▸ List.prefix_refl _

theorem Early.keeps (h : Early maxlen line) (hpos : 1 ≤ maxlen) (hhead : ∃ l ls, line = l :: ls ∧ l.isBlank = false ∧ l.char ≠ 0x23) :
    Keeps maxlen line := by
  intro front l back hline
  have htwo : 2 ≤ maxlen ∨ late maxlen line = false := by
    obtain rfl | htwo := Nat.eq_or_lt_of_le hpos
    · exact .inr (h.late_eq hhead)
    · exact .inl htwo
  have hsplit : line = front ++ [l] ++ back := by simp [hline]
  rw [hsplit] at htwo h
  obtain ⟨d, ds, hds, hblank, hhash⟩ := hhead
  cases front with
  | nil => exact List.nil_prefix
  | cons e front =>
    obtain rfl : d = e := (List.cons.inj (hds.symm.trans hline)).1
    have hnext := htwo.imp_right late_of_append
    have hput : (d :: front ++ [l]).foldl (Line.put maxlen) .start = ⟨written maxlen (d :: front ++ [l]), false⟩ :=
      foldl_start hblank hhash hpos hnext
    rw [hput, foldl_start hblank hhash hpos (hnext.imp_right late_of_append)]
    exact h.written_prefix hpos

/-- The first join behind the place where a line is cut. -/
theorem exists_first_late (h : late maxlen line = true) :
    ∃ front l back, line = front ++ l :: back ∧ l.joins = true ∧ maxlen ≤ front.length ∧ late maxlen front = false := by
  induction line using List.reverseRecOn with
  | nil =>
    rw [late_of_short (Nat.zero_le maxlen)] at h
    exact absurd h Bool.false_ne_true
  | append_singleton line l ih =>
    cases hearlier : late maxlen line with
    | true =>
      obtain ⟨front, m, back, rfl, hjoins, hlong, hlate⟩ := ih hearlier
      exact ⟨front, m, back ++ [l], by simp, hjoins, hlong, hlate⟩
    | false =>
      rw [late_concat, hearlier, Bool.false_or, Bool.and_eq_true, decide_eq_true_eq] at h
      exact ⟨line, l, [], rfl, h.2, h.1, hearlier⟩

/-- With room for one character, a join behind it takes it away. -/
theorem Keeps.late_eq (h : Keeps 1 line) (hhead : ∃ l ls, line = l :: ls ∧ l.isBlank = false ∧ l.char ≠ 0x23) : late 1 line = false := by
  by_contra hlate
  obtain ⟨front, m, back, hline, hjoins, hlong, hearly⟩ := exists_first_late (Bool.eq_true_of_not_eq_false hlate)
  obtain ⟨d, ds, hds, hblank, hhash⟩ := hhead
  have hprefix := h front m back hline
  cases front with
  | nil => exact absurd hlong (by simp)
  | cons e front =>
    obtain rfl : d = e := (List.cons.inj (hds.symm.trans hline)).1
    have hkept : written 1 (d :: front) = [d.char] := by
      unfold written
      rw [hearly]
      rfl
    have hfold : (d :: front).foldl (Line.put 1) .start = ⟨[d.char], false⟩ := by
      rw [foldl_start hblank hhash (Nat.le_refl 1) (.inr hearly), hkept]
    have hput : Line.put 1 ⟨[d.char], false⟩ m = ⟨[], false⟩ := by
      simp only [Line.put, Bool.false_eq_true, if_false, List.cons_ne_nil, List.length_singleton, Nat.lt_irrefl, hjoins, if_true]
      rfl
    rw [List.foldl_append, hfold, List.foldl_cons, List.foldl_nil, hput] at hprefix
    exact absurd (List.prefix_nil.1 hprefix) (List.cons_ne_nil _ _)

/-- The calls of `get_line_from_config` return the logical lines, each cut to its first `maxlen`
characters, exactly where no line is joined behind these, unless the last of them is a blank. -/
theorem readsLines_iff (maxlen : Nat) (stream : List Byte) : ReadsLines maxlen stream ↔ JoinedEarly maxlen stream := by
  constructor
  · intro h
    have hroom : maxlen = 0 → logicalLines stream = [] := by
      intro hzero
      apply List.eq_nil_iff_forall_not_mem.2
      intro line hline
      apply readLines_nonempty (cut maxlen line)
      · rw [h.lines]
        exact List.mem_map_of_mem hline
      · rw [hzero]
        rfl
    refine ⟨hroom, fun line hline => ?_⟩
    have hpos : 1 ≤ maxlen := by
      by_contra hzero
      rw [hroom (by omega)] at hline
      cases hline
    obtain hone | htwo := Nat.eq_or_lt_of_le hpos
    · subst hone
      have hlate := (h.kept line hline).late_eq (head_of_mem hline)
      exact fun hjoins => absurd (List.any_eq_true.2 hjoins) (by simpa [late] using hlate)
    · have hlines := h.lines
      rw [readLines_written fun _ _ => .inl htwo] at hlines
      exact (written_eq_cut_iff hpos).1 (List.map_inj_left.1 hlines line hline)
  · intro h
    have hpos : ∀ line ∈ logicalLines stream, 1 ≤ maxlen := by
      intro line hline
      by_contra hzero
      rw [h.room (by omega)] at hline
      cases hline
    constructor
    · rw [readLines_written]
      · apply List.map_congr_left
        intro line hline
        exact (written_eq_cut_iff (hpos line hline)).2 (h.early line hline)
      · intro line hline
        obtain hone | htwo := Nat.eq_or_lt_of_le (hpos line hline)
        · subst hone
          exact .inr ⟨Nat.le_refl 1, (h.early line hline).late_eq (head_of_mem hline)⟩
        · exact .inl htwo
    · intro line hline
      exact (h.early line hline).keeps (hpos line hline) (head_of_mem hline)
    · exact getLine_ends maxlen stream .start

/-- `n` characters, a join behind them, and one more. -/
def longLine (n : Nat) : List Byte := List.replicate n 0x61 ++ [0x5C, 0x0A, 0x62, 0x0A]

theorem letters_longLine (n : Nat) :
    letters (longLine n) = List.replicate n ⟨0x61, false⟩ ++ [⟨0x20, true⟩, ⟨0x62, false⟩, ⟨0x0A, false⟩] := by
  unfold longLine
  induction n with
  | zero => rfl
  | succ n ih =>
    have hplain (text : List Byte) : letters (0x61 :: text) = ⟨0x61, false⟩ :: letters text := by
      cases text with
      | nil => rfl
      | cons d text => exact if_neg fun h => absurd h.1 (by decide)
    rw [List.replicate_succ, List.cons_append, hplain, ih, List.replicate_succ, List.cons_append]

theorem splitOnP_replicate (n : Nat) (ls : List Letter) :
    (List.replicate n (⟨0x61, false⟩ : Letter) ++ ls).splitOnP Letter.isNewline =
      (ls.splitOnP Letter.isNewline).modifyHead (List.replicate n ⟨0x61, false⟩ ++ ·) := by
  induction n with
  | zero =>
    rw [List.replicate_zero, List.nil_append]
    cases ls.splitOnP Letter.isNewline <;> rfl
  | succ n ih =>
    have hplain : ¬ Letter.isNewline ⟨0x61, false⟩ = true := by decide
    rw [List.replicate_succ, List.cons_append, List.splitOnP_cons_eq_if_modifyHead, if_neg hplain, ih]
    cases ls.splitOnP Letter.isNewline <;> rfl

theorem logicalLines_longLine (n : Nat) :
    logicalLines (longLine (n + 1)) = [List.replicate (n + 1) ⟨0x61, false⟩ ++ [⟨0x20, true⟩, ⟨0x62, false⟩]] := by
  have hclean : clean (longLine (n + 1)) = longLine (n + 1) := by
    unfold clean longLine
    rw [List.filter_append, List.map_append, List.filter_replicate_of_pos (by decide), List.map_replicate]
    rfl
  have hrest : ([⟨0x20, true⟩, ⟨0x62, false⟩, ⟨0x0A, false⟩] : List Letter).splitOnP Letter.isNewline =
    [[⟨0x20, true⟩, ⟨0x62, false⟩], []] := by decide
  unfold logicalLines
  rw [hclean, letters_longLine, splitOnP_replicate, hrest]
  rfl

theorem written_longLine (n : Nat) :
    written (n + 2) (List.replicate (n + 2) ⟨0x61, false⟩ ++ [⟨0x20, true⟩, ⟨0x62, false⟩]) =
      (List.replicate (n + 2) 0x61).set (n + 1) 0x20 ∧
      cut (n + 2) (List.replicate (n + 2) ⟨0x61, false⟩ ++ [⟨0x20, true⟩, ⟨0x62, false⟩]) = List.replicate (n + 2) 0x61 := by
  have hcut : cut (n + 2) (List.replicate (n + 2) ⟨0x61, false⟩ ++ [⟨0x20, true⟩, ⟨0x62, false⟩]) = List.replicate (n + 2) 0x61 := by
    unfold cut
    rw [List.map_append, List.map_replicate, List.take_left' List.length_replicate]
  have hlate : late (n + 2) (List.replicate (n + 2) ⟨0x61, false⟩ ++ [⟨0x20, true⟩, ⟨0x62, false⟩]) = true := by
    unfold late
    rw [List.drop_left' List.length_replicate]
    rfl
  refine ⟨?_, hcut⟩
  rw [written, hcut, hlate]
  rfl

/-- A line that is joined where it is cut has the last character that was kept overwritten with a blank. -/
theorem longLine_altered :
    readLines newHeapsize (longLine newHeapsize) = [(List.replicate newHeapsize 0x61).set 1499 0x20] ∧
      (logicalLines (longLine newHeapsize)).map (cut newHeapsize) = [List.replicate newHeapsize 0x61] ∧
      ¬ ReadsLines newHeapsize (longLine newHeapsize) := by
  obtain ⟨hwritten, hcut⟩ := written_longLine 1498
  have hlines := logicalLines_longLine 1499
  have hread : readLines newHeapsize (longLine newHeapsize) = [(List.replicate newHeapsize 0x61).set 1499 0x20] := by
    rw [readLines_written fun _ _ => .inl (by decide), newHeapsize, hlines, List.map_singleton, hwritten]
  have hcuts : (logicalLines (longLine newHeapsize)).map (cut newHeapsize) = [List.replicate newHeapsize 0x61] := by
    rw [newHeapsize, hlines, List.map_singleton, hcut]
  refine ⟨hread, hcuts, fun h => ?_⟩
  have hsame := h.lines
  rw [hread, hcuts, List.cons.injEq] at hsame
  have hlast : ((List.replicate newHeapsize (0x61 : Byte)).set 1499 0x20)[1499]? = some 0x20 := by
    apply List.getElem?_set_self
    rw [List.length_replicate]
    decide
  rw [hsame.1, List.getElem?_replicate] at hlast
  exact absurd hlast (by decide)

end TrustedGrub.Menu
