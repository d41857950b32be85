import Mathlib.Data.List.Forall2
import Mathlib.Data.List.TakeWhile
import TrustedGrub.Boot.Checkfile

/-!
# Checkfiles

What a checkfile is: lines of a digest, a blank and a path. The scan of the loop is
followed line by line, over a content that may end anywhere, and the theorem of the
end says for which contents and files `load_checkfile` does what it is for.
-/

namespace TrustedGrub.Boot
open Fips180 (Byte Word Words)
open Disk
open Memory (slice)

variable {σ ι : Type} {p : Platform σ ι}

/-- A line: forty bytes, a blank, and the rest of the line. -/
structure Line where
  hash : List Byte
  path : List Byte
  hash_length : hash.length = 40
  path_ends : 0x0A ∉ path

def Line.text (l : Line) : List Byte := l.hash ++ 0x20 :: (l.path ++ [0x0A])

def Line.fileName (l : Line) : List Byte := cString l.path

/-- Forty hexadecimal digits, in small or capital letters. -/
def Line.WellFormed (l : Line) : Prop := ∀ c ∈ l.hash, (digitOf 16 c).isSome

/-- The content of a checkfile. -/
def content (lines : List Line) : List Byte := lines.flatMap Line.text

/-- The reference digest is this one. -/
def Expects (hash : List Byte) (hashResult : Words) : Prop := hash.map (digitOf 16) = (hashNibbles hashResult).map some

instance (hash : List Byte) (hashResult : Words) : Decidable (Expects hash hashResult) := inferInstanceAs (Decidable (_ = _))

/-- The content ends before the entry does. -/
def Cut (rest : List Byte) : Prop :=
  rest ≠ [] ∧ (rest.length ≤ 40 ∨ rest[40]? = some 0x20 ∧ rest.length < 41 + fileNameBuf ∧ 0x0A ∉ rest.drop 41)

/-- The blank is missing. -/
def NoBlank (rest : List Byte) : Prop := 40 < rest.length ∧ rest[40]? ≠ some 0x20

/-- The path does not end within the buffer. -/
def TooLong (rest : List Byte) : Prop :=
  41 + fileNameBuf ≤ rest.length ∧ rest[40]? = some 0x20 ∧ 0x0A ∉ (rest.drop 41).take fileNameBuf

/-- The files of some lines are measured one after the other, if they all can be. -/
def measureAll (p : Platform σ ι) : List Line → State σ ι → Option (List Words × State σ ι)
  | [], st => some ([], st)
  | l :: lines, st =>
    match measureFile p st l.fileName with
    | some (some hashResult, st) => (measureAll p lines st).map fun r => (hashResult :: r.1, r.2)
    | _ => none

/-- The bytes are a list of such lines. -/
def Lists (bytes : List Byte) (lines : List Line) : Prop := bytes = content lines ∧ ∀ l ∈ lines, l.WellFormed

/-- "the check file MUST NOT be larger than 8096 Bytes". -/
def maxCheckfile : Nat := 8096

/-- A checkfile is dealt with as it should be, which leaves `r`. -/
structure Meets (p : Platform σ ι) (bytes : List Byte) (r : Outcome × Checking σ ι) : Prop where
  /-- No index is behind the bytes that have been read. -/
  inside : ∀ i ∈ r.2.used, i < bytes.length
  /-- Every entry is processed once, in order. -/
  inOrder : ∀ lines, Lists bytes lines → bytes.length ≤ maxCheckfile →
    r.2.processed.map (fun e => (e.hashInput, e.fileName)) = lines.map fun l => (l.hash, l.fileName)
  /-- `PCR_CHECKFILE` is extended with the measured digests. -/
  extended : ∀ lines, Lists bytes lines → bytes.length ≤ maxCheckfile →
    r.2.extended = if p.tpm then r.2.processed.map fun e => (pcrCheckfile, e.hashResult) else []
  /-- Those with another digest than expected are reported, and counted. -/
  reported : ∀ lines, Lists bytes lines → bytes.length ≤ maxCheckfile →
    r.2.reported = (r.2.processed.filter fun e => ¬ Expects e.hashInput e.hashResult).map Entry.fileName ∧
      r.2.generalError = r.2.reported.length
  /-- What is no checkfile is not passed. -/
  rejected : (¬ ∃ lines, Lists bytes lines) → r.1 = .returned 0 → r.2.reported ≠ []

/-- The digest of a line's file has been compared with the expected one, and the result
is right: with a TPM it is extended, so it must be the one expected. -/
def Judged (tpm : Bool) (l : Line) (hashResult : Words) : Prop :=
  (tpm = true ∨ Expects l.hash hashResult) → sha1HashBufString hashResult = l.hash

/-- The conditions under which the loop meets a content, from the state `st` on. -/
structure Proper (p : Platform σ ι) (bytes : List Byte) (st : State σ ι) : Prop where
  /-- When the content ends within an entry, an earlier file cannot be measured. -/
  cut : ∀ lines rest, bytes = content lines ++ rest → (∀ l ∈ lines, l.path.length < fileNameBuf) → Cut rest →
    measureAll p lines st = none
  /-- The names of a checkfile fit, and the files can be measured and are as expected. -/
  listed : ∀ lines, Lists bytes lines → bytes.length ≤ maxCheckfile → (∀ l ∈ lines, l.path.length < fileNameBuf) ∧
    ∃ digests st', measureAll p lines st = some (digests, st') ∧ List.Forall₂ (Judged p.tpm) lines digests

/-! ## The layout of a content -/

theorem Line.text_length (l : Line) : l.text.length = 41 + (l.path.length + 1) := by
  simp only [Line.text, List.length_append, List.length_cons, List.length_nil, l.hash_length]
  omega

theorem content_cons (l : Line) (lines : List Line) : content (l :: lines) = l.text ++ content lines := rfl

/-- A line at the head of the content. -/
theorem line_at_head {bytes : List Byte} (hblank : bytes[40]? = some 0x20)
    (hend : 0x0A ∈ (bytes.drop 41).take fileNameBuf) :
    ∃ (l : Line) (later : List Byte), bytes = l.text ++ later ∧ l.path.length < fileNameBuf := by
  obtain ⟨path, behind, hsplit, hpath⟩ := List.eq_append_cons_of_mem hend
  obtain ⟨hlen, hbyte⟩ := List.getElem?_eq_some_iff.1 hblank
  have hroom : path.length < fileNameBuf := by
    have h := congrArg List.length hsplit
    simp only [List.length_append, List.length_cons] at h
    have := List.length_take_le fileNameBuf (bytes.drop 41)
    omega
  obtain ⟨later, htail⟩ : ∃ later, bytes.drop 41 = path ++ 0x0A :: later := by
    refine ⟨behind ++ (bytes.drop 41).drop fileNameBuf, ?_⟩
    conv_lhs => rw [← List.take_append_drop fileNameBuf (bytes.drop 41), hsplit]
    simp only [List.append_assoc, List.cons_append]
  refine ⟨⟨bytes.take 40, path, by rw [List.length_take]; omega, hpath⟩, later, ?_, hroom⟩
  calc bytes = bytes.take 40 ++ bytes.drop 40 := (List.take_append_drop 40 bytes).symm
    _ = bytes.take 40 ++ (0x20 :: bytes.drop 41) := by rw [List.drop_eq_getElem_cons hlen, hbyte]
    _ = _ := by
      rw [htail]
      simp only [Line.text, List.append_assoc, List.cons_append, List.nil_append]

/-- Every content is some complete lines, and what makes the scan stop behind them. -/
theorem lines_exist (bytes : List Byte) : ∃ lines rest, bytes = content lines ++ rest ∧
    (∀ l ∈ lines, l.path.length < fileNameBuf) ∧ (rest = [] ∨ Cut rest ∨ NoBlank rest ∨ TooLong rest) := by
  induction hn : bytes.length using Nat.strong_induction_on generalizing bytes with
  | _ n ih =>
    by_cases hlen : bytes.length ≤ 40
    · refine ⟨[], bytes, rfl, nofun, ?_⟩
      rcases eq_or_ne bytes [] with h | h
      · exact .inl h
      · exact .inr (.inl ⟨h, .inl hlen⟩)
    by_cases hblank : bytes[40]? = some 0x20
    · by_cases hend : 0x0A ∈ (bytes.drop 41).take fileNameBuf
      · obtain ⟨l, later, hbytes, hpath⟩ := line_at_head hblank hend
        have hshorter : later.length < n := by
          rw [← hn, hbytes, List.length_append, l.text_length]
          omega
        obtain ⟨lines, rest, hlater, hshort, hstop⟩ := ih _ hshorter later rfl
        refine ⟨l :: lines, rest, ?_, ?_, hstop⟩
        · rw [hbytes, hlater, content_cons, List.append_assoc]
        · intro l' hl'
          rcases List.mem_cons.1 hl' with rfl | hl'
          · exact hpath
          · exact hshort l' hl'
      · refine ⟨[], bytes, rfl, nofun, .inr ?_⟩
        rcases Nat.lt_or_ge bytes.length (41 + fileNameBuf) with hshort | hlong
        · have hall : (bytes.drop 41).take fileNameBuf = bytes.drop 41 :=
            List.take_of_length_le (by rw [List.length_drop]; omega)
          rw [hall] at hend
          have hne : bytes ≠ [] := by rintro rfl; exact hlen (Nat.zero_le 40)
          exact .inl ⟨hne, .inr ⟨hblank, hshort, hend⟩⟩
        · exact .inr (.inr ⟨hlong, hblank, hend⟩)
    · exact ⟨[], bytes, rfl, nofun, .inr (.inr (.inl ⟨by omega, hblank⟩))⟩

/-- The loop has passed a line, whose file has this digest. -/
def Checking.passed (p : Platform σ ι) (c : Checking σ ι) (l : Line) (hashResult : Words) (st : State σ ι) : Checking σ ι :=
  (((c.using (List.range' c.currLength l.text.length)).within st).checked p ⟨l.hash, l.fileName, hashResult⟩).at
    (c.currLength + l.text.length)

/-- The entry that a line comes to. -/
def Line.entry (l : Line) (hashResult : Words) : Entry := ⟨l.hash, l.fileName, hashResult⟩

section
variable (c : Checking σ ι) (l : Line) (hashResult : Words) (st : State σ ι)

@[simp] theorem passed_st : (c.passed p l hashResult st).st = st := rfl
@[simp] theorem passed_currLength : (c.passed p l hashResult st).currLength = c.currLength + l.text.length := rfl
@[simp] theorem passed_used : (c.passed p l hashResult st).used = c.used ++ List.range' c.currLength l.text.length := rfl
@[simp] theorem passed_processed : (c.passed p l hashResult st).processed = c.processed ++ [l.entry hashResult] := rfl

end

theorem using_using (c : Checking σ ι) (xs ys : List Nat) : (c.using xs).using ys = c.using (xs ++ ys) := by
  simp only [Checking.using, List.append_assoc]

/-- A pass over a complete line. -/
theorem checkEntry_line {data : Nat → Byte} {c : Checking σ ι} {l : Line} (hshort : l.path.length < fileNameBuf)
    (hdata : slice data c.currLength l.text.length = l.text) :
    checkEntry p data c =
      match measureFile p c.st l.fileName with
      | none => .ends .stopped (c.using (List.range' c.currLength l.text.length))
      | some (none, st) => .ends (.returned (-1)) ((c.using (List.range' c.currLength l.text.length)).within st)
      | some (some hashResult, st) => .goesOn (c.passed p l hashResult st) := by
  have hlength : l.text.length = 40 + (l.path.length + 1 + 1) := by
    rw [l.text_length]
    omega
  rw [hlength, Line.text, Memory.slice_add] at hdata
  obtain ⟨hhash, htail⟩ := List.append_inj hdata (by rw [Memory.slice_length, l.hash_length])
  rw [Memory.slice_succ] at htail
  obtain ⟨hblank, hpath⟩ := List.cons.inj htail
  have hname := readName_ended l.path_ends hshort hpath
  have hused : List.range' c.currLength 41 ++ List.range' (c.currLength + 40 + 1) (l.path.length + 1) =
      List.range' c.currLength l.text.length := by
    rw [l.text_length]
    exact List.range'_append_1
  have hnext : c.currLength + 40 + 1 + l.path.length + 1 = c.currLength + l.text.length := by
    rw [l.text_length]
    omega
  simp only [checkEntry, hblank, hname, using_using, hused, hnext, hhash]
  rfl

/-! ## Several lines -/

/-- The loop over complete lines, as long as their files can be measured. -/
def passLines (p : Platform σ ι) : List Line → Checking σ ι → Option (Checking σ ι)
  | [], c => some c
  | l :: lines, c =>
    match measureFile p c.st l.fileName with
    | some (some hashResult, st) => passLines p lines (c.passed p l hashResult st)
    | _ => none

/-- The history goes with the comparisons. -/
structure Checking.Kept (p : Platform σ ι) (c : Checking σ ι) : Prop where
  reported : c.reported = (c.processed.filter fun e => ¬ e.Matches).map Entry.fileName
  counted : c.generalError = c.reported.length
  extended : c.extended =
    if p.tpm then (c.processed.filter fun e => e.Matches).map fun e => (pcrCheckfile, e.hashResult) else []

theorem Checking.Kept.passed {c : Checking σ ι} (h : c.Kept p) (l : Line) (hashResult : Words) (st : State σ ι) :
    (c.passed p l hashResult st).Kept p := by
  obtain ⟨hreported, hcounted, hextended⟩ := h
  by_cases hmatch : (Entry.mk l.hash l.fileName hashResult).Matches
  · constructor <;> simp only [Checking.passed, Checking.at, Checking.checked, Checking.within, Checking.using, hmatch,
      List.filter_append, List.map_append, if_true, hreported, hcounted, hextended]
    · simp [hmatch]
    · cases p.tpm <;> simp [hmatch]
  · constructor <;> simp only [Checking.passed, Checking.at, Checking.checked, Checking.within, Checking.using, hmatch,
      List.filter_append, List.map_append, if_false, hreported, hcounted, hextended]
    · simp [hmatch]
    · simp
    · cases p.tpm <;> simp [hmatch]

/-- What the loop has done behind some lines. -/
structure Behind (p : Platform σ ι) (c : Checking σ ι) (lines : List Line) (digests : List Words) (c' : Checking σ ι) : Prop where
  currLength : c'.currLength = c.currLength + (content lines).length
  used : c'.used = c.used ++ List.range' c.currLength (content lines).length
  processed : c'.processed = c.processed ++ List.zipWith Line.entry lines digests
  kept : c.Kept p → c'.Kept p

theorem passLines_measured (lines : List Line) : ∀ c : Checking σ ι,
    match measureAll p lines c.st with
    | none => passLines p lines c = none
    | some (digests, st) => digests.length = lines.length ∧
      ∃ c', passLines p lines c = some c' ∧ c'.st = st ∧ Behind p c lines digests c' := by
  induction lines with
  | nil =>
    intro c
    exact ⟨rfl, c, rfl, rfl, rfl, (List.append_nil _).symm, (List.append_nil _).symm, id⟩
  | cons l lines ih =>
    intro c
    simp only [measureAll, passLines]
    cases measureFile p c.st l.fileName with
    | none => rfl
    | some r =>
      obtain ⟨report, st⟩ := r
      cases report with
      | none => rfl
      | some hashResult =>
        have hlater := ih (c.passed p l hashResult st)
        rw [passed_st] at hlater
        cases hrest : measureAll p lines st with
        | none =>
          simp only [hrest] at hlater ⊢
          exact hlater
        | some r =>
          obtain ⟨digests, st'⟩ := r
          simp only [hrest] at hlater ⊢
          obtain ⟨hlen, c', hpass, hst, hcurr, hused, hprocessed, hkept⟩ := hlater
          refine ⟨congrArg Nat.succ hlen, c', hpass, hst, ?_, ?_, ?_, fun h => hkept (h.passed l hashResult st)⟩
          · rw [hcurr, passed_currLength, content_cons, List.length_append, Nat.add_assoc]
          · rw [hused, passed_used, passed_currLength, content_cons, List.length_append, List.append_assoc, List.range'_append_1]
          · rw [hprocessed, passed_processed, List.append_assoc]
            rfl

/-- A run that stops at a file which cannot be measured. -/
structure Refused (c : Checking σ ι) (lines : List Line) (r : Outcome × Checking σ ι) : Prop where
  outcome : r.1 ≠ .returned 0
  used : ∀ i ∈ r.2.used, i ∈ c.used ∨ i < c.currLength + (content lines).length
  processed : r.2.processed.length < c.processed.length + lines.length

/-- The file of the first line cannot be measured. -/
theorem refused_first {c c' : Checking σ ι} {outcome : Outcome} (l : Line) (lines : List Line)
    (houtcome : outcome ≠ .returned 0) (hused : c'.used = c.used ++ List.range' c.currLength l.text.length)
    (hprocessed : c'.processed = c.processed) : Refused c (l :: lines) (outcome, c') := by
  refine ⟨houtcome, fun i hi => ?_, ?_⟩
  · rw [hused, List.mem_append, List.mem_range'_1] at hi
    rw [content_cons, List.length_append]
    exact hi.imp id fun h => by omega
  · rw [hprocessed, List.length_cons]
    omega

/-- The file of a later line cannot be measured. -/
theorem Refused.later {c : Checking σ ι} {l : Line} {hashResult : Words} {st : State σ ι} {lines : List Line}
    {r : Outcome × Checking σ ι} (h : Refused (c.passed p l hashResult st) lines r) : Refused c (l :: lines) r := by
  obtain ⟨houtcome, hused, hprocessed⟩ := h
  refine ⟨houtcome, fun i hi => ?_, ?_⟩
  · have hi := hused i hi
    rw [passed_used, passed_currLength, List.mem_append, List.mem_range'_1] at hi
    rw [content_cons, List.length_append]
    rcases hi with (hi | hi) | hi
    · exact .inl hi
    · exact .inr (by omega)
    · exact .inr (by omega)
  · rw [passed_processed, List.length_append, List.length_singleton] at hprocessed
    rw [List.length_cons]
    omega

/-- The loop over complete lines, and what follows them. -/
theorem checkEntries_lines {data : Nat → Byte} {maxLength : Int} {r : Outcome × Checking σ ι} (lines : List Line) :
    ∀ {fuel : Nat} {c : Checking σ ι}, (∀ l ∈ lines, l.path.length < fileNameBuf) →
      slice data c.currLength (content lines).length = content lines →
      c.currLength + (content lines).length ≤ maxLength → checkEntries p data maxLength fuel c = some r →
      match passLines p lines c with
      | none => Refused c lines r
      | some c' => ∃ fuel', checkEntries p data maxLength fuel' c' = some r := by
  induction lines with
  | nil => intro fuel c _ _ _ h; exact ⟨fuel, h⟩
  | cons l lines ih =>
    intro fuel c hshort hdata hlen h
    cases fuel with
    | zero => cases h
    | succ fuel =>
      rw [content_cons, List.length_append] at hlen
      rw [content_cons, List.length_append, Memory.slice_add] at hdata
      obtain ⟨hline, hlines⟩ := List.append_inj hdata (by rw [Memory.slice_length])
      have htext := l.text_length
      have hin : (c.currLength : Int) < maxLength := by omega
      rw [checkEntries, if_pos hin, checkEntry_line (hshort l List.mem_cons_self) hline] at h
      simp only [passLines]
      cases hmeasure : measureFile p c.st l.fileName with
      | none =>
        simp only [hmeasure] at h ⊢
        cases h
        exact refused_first l lines nofun rfl rfl
      | some m =>
        obtain ⟨report, st⟩ := m
        cases report with
        | none =>
          simp only [hmeasure] at h ⊢
          cases h
          exact refused_first l lines nofun rfl rfl
        | some hashResult =>
          simp only [hmeasure] at h ⊢
          have hlater := ih (c := c.passed p l hashResult st) (fun l' hl' => hshort l' (List.mem_cons_of_mem l hl')) hlines
            (by rw [passed_currLength]; omega) h
          cases hpass : passLines p lines (c.passed p l hashResult st) with
          | none =>
            simp only [hpass] at hlater ⊢
            exact hlater.later
          | some c' =>
            simp only [hpass] at hlater ⊢
            exact hlater

/-! ## The end of the content -/

/-- The locals that a pass leaves. -/
def EntryPass.checking : EntryPass σ ι → Checking σ ι
  | .goesOn c => c
  | .ends _ c => c

/-- The indices that one pass uses. -/
theorem checkEntry_used (p : Platform σ ι) (data : Nat → Byte) (c : Checking σ ι) : (checkEntry p data c).checking.used =
    c.used ++ List.range' c.currLength 41 ++
      if data (c.currLength + 40) = 0x20 then (readName data fileNameBuf (c.currLength + 41)).used else [] := by
  simp only [checkEntry]
  by_cases hblank : data (c.currLength + 40) = 0x20
  · simp only [hblank, ne_eq, not_true_eq_false, if_false, if_true]
    split
    · rfl
    · split <;> rfl
  · simp only [hblank, ne_eq, not_false_eq_true, if_true, if_false, List.append_nil]
    rfl

/-- The indices used are not forgotten. -/
theorem checkEntries_used {data : Nat → Byte} {maxLength : Int} {r : Outcome × Checking σ ι} :
    ∀ {fuel : Nat} {c : Checking σ ι}, checkEntries p data maxLength fuel c = some r → ∀ i ∈ c.used, i ∈ r.2.used := by
  intro fuel
  induction fuel with
  | zero => intro c h; cases h
  | succ fuel ih =>
    intro c h i hi
    have hpass : i ∈ (checkEntry p data c).checking.used := by
      rw [checkEntry_used, List.append_assoc]
      exact List.mem_append_left _ hi
    rw [checkEntries] at h
    by_cases hin : (c.currLength : Int) < maxLength
    · rw [if_pos hin] at h
      cases hentry : checkEntry p data c with
      | goesOn c' =>
        simp only [hentry] at h hpass
        exact ih h i hpass
      | ends outcome c' =>
        simp only [hentry] at h hpass
        cases h
        exact hpass
    · rw [if_neg hin] at h
      cases h
      simp only [finishChecking]
      split
      · split <;> exact hi
      · exact hi

/-- What the next pass uses is used in the end. -/
theorem checkEntries_pass_used {data : Nat → Byte} {maxLength : Int} {r : Outcome × Checking σ ι} {fuel : Nat} {c : Checking σ ι}
    (hin : c.currLength < maxLength) (h : checkEntries p data maxLength fuel c = some r) :
    ∀ i ∈ (checkEntry p data c).checking.used, i ∈ r.2.used := by
  intro i hi
  cases fuel with
  | zero => cases h
  | succ fuel =>
    rw [checkEntries, if_pos hin] at h
    cases hentry : checkEntry p data c with
    | goesOn c' =>
      simp only [hentry] at h hi
      exact checkEntries_used h i hi
    | ends outcome c' =>
      simp only [hentry] at h hi
      cases h
      exact hi

section
variable {data : Nat → Byte} {r : Outcome × Checking σ ι} {fuel : Nat} {c : Checking σ ι} {rest : List Byte}

/-- What memory holds of the content. -/
theorem data_eq_getElem? (hdata : slice data c.currLength rest.length = rest) {i : Nat} (hi : i < rest.length) :
    rest[i]? = some (data (c.currLength + i)) := by
  conv_lhs => rw [← hdata]
  rw [Memory.slice_getElem?, if_pos hi]

/-- Bytes of the path that the content holds. -/
theorem data_no_newline (hdata : slice data c.currLength rest.length = rest) {k : Nat} (hk : 41 + k ≤ rest.length)
    (hno : 0x0A ∉ (rest.drop 41).take k) : ∀ i < k, data (c.currLength + 41 + i) ≠ 0x0A := by
  intro i hi hnewline
  apply hno
  rw [List.mem_iff_getElem?]
  refine ⟨i, ?_⟩
  rw [List.getElem?_take, if_pos hi, List.getElem?_drop, data_eq_getElem? hdata (by omega), ← Nat.add_assoc, hnewline]

/-- A content that ends within an entry: the pass uses an index behind it. -/
theorem checkEntries_cut (hdata : slice data c.currLength rest.length = rest) (hcut : Cut rest)
    (h : checkEntries p data (c.currLength + rest.length : Nat) fuel c = some r) :
    ∃ i ∈ r.2.used, c.currLength + rest.length ≤ i := by
  obtain ⟨hne, hcut⟩ := hcut
  have hpos := List.length_pos_of_ne_nil hne
  have hused := checkEntries_pass_used (by omega) h
  rw [checkEntry_used] at hused
  rcases hcut with hshort | ⟨hblank, hroom, hno⟩
  · refine ⟨c.currLength + 40, hused _ (List.mem_append_left _ (List.mem_append_right _ ?_)), by omega⟩
    rw [List.mem_range'_1]
    omega
  · obtain ⟨hlen, -⟩ := List.getElem?_eq_some_iff.1 hblank
    have hsame := (data_eq_getElem? hdata hlen).symm.trans hblank
    rw [if_pos (Option.some.inj hsame)] at hused
    refine ⟨c.currLength + 41 + (rest.length - 41), hused _ (List.mem_append_right _ (readName_uses (by omega) ?_)), by omega⟩
    refine data_no_newline hdata (by omega) fun hnewline => hno ?_
    exact List.mem_of_mem_take hnewline

/-- An entry without its blank is rejected. -/
theorem checkEntries_noBlank (hdata : slice data c.currLength rest.length = rest) (hno : NoBlank rest)
    (h : checkEntries p data (c.currLength + rest.length : Nat) fuel c = some r) :
    r = (.returned 1, c.using (List.range' c.currLength 41)) := by
  obtain ⟨hlen, hblank⟩ := hno
  have hmissing : data (c.currLength + 40) ≠ 0x20 := fun hdata' => hblank (by rw [data_eq_getElem? hdata hlen, hdata'])
  have hin : (c.currLength : Int) < (c.currLength + rest.length : Nat) := by omega
  cases fuel with
  | zero => cases h
  | succ fuel =>
    rw [checkEntries, if_pos hin] at h
    simp only [checkEntry, if_pos hmissing] at h
    exact (Option.some.inj h).symm

/-- An entry with too long a name is rejected. -/
theorem checkEntries_tooLong (hdata : slice data c.currLength rest.length = rest) (hlong : TooLong rest)
    (h : checkEntries p data (c.currLength + rest.length : Nat) fuel c = some r) :
    r = (.returned (-1), c.using (List.range' c.currLength (41 + fileNameBuf))) := by
  obtain ⟨hlen, hblank, hno⟩ := hlong
  have hfound : data (c.currLength + 40) = 0x20 :=
    Option.some.inj ((data_eq_getElem? hdata (by omega)).symm.trans hblank)
  obtain ⟨hused, hended⟩ := readName_tooLong (data_no_newline hdata hlen hno)
  have hin : (c.currLength : Int) < (c.currLength + rest.length : Nat) := by omega
  cases fuel with
  | zero => cases h
  | succ fuel =>
    rw [checkEntries, if_pos hin] at h
    have hadd : c.currLength + 40 + 1 = c.currLength + 41 := rfl
    simp only [checkEntry, hfound, hadd, hused, hended, using_using] at h
    rw [← (Option.some.inj h), ← List.range'_append_1]

/-- Behind the last entry. -/
theorem checkEntries_done (h : checkEntries p data c.currLength fuel c = some r) : r = finishChecking p c := by
  cases fuel with
  | zero => cases h
  | succ fuel =>
    rw [checkEntries, if_neg (lt_irrefl _)] at h
    exact (Option.some.inj h).symm

end

/-! ## Digests -/

theorem digitOf_hexChar : ∀ n < 16, digitOf 16 (hexChar n) = some n := by decide

theorem nibbles_lt (w : Word) : ∀ n ∈ nibbles w, n < 16 := by
  intro n hn
  obtain ⟨shift, -, rfl⟩ := List.mem_map.1 hn
  have hmask := BitVec.toNat_and (w >>> shift) 0x0F#32
  have hle : (w >>> shift).toNat &&& 15 ≤ 15 := Nat.and_le_right
  have hfifteen : (0x0F#32).toNat = 15 := rfl
  rw [hmask, hfifteen]
  omega

theorem hashNibbles_lt (hashResult : Words) : ∀ n ∈ hashNibbles hashResult, n < 16 := by
  intro n hn
  simp only [hashNibbles, List.mem_append] at hn
  rcases hn with (((hn | hn) | hn) | hn) | hn <;> exact nibbles_lt _ n hn

/-- The printed digits are read as those of the digest. -/
theorem expects_printed (hashResult : Words) : Expects (sha1HashBufString hashResult) hashResult := by
  simp only [Expects, sha1HashBufString, List.map_map]
  refine List.map_congr_left fun n hn => ?_
  exact digitOf_hexChar n (hashNibbles_lt hashResult n hn)

theorem sha1HashBufString_length (hashResult : Words) : (sha1HashBufString hashResult).length = 40 := by
  simp only [sha1HashBufString, hashNibbles, nibbles, List.length_map, List.length_append, List.length_cons, List.length_nil]

/-- When the strings do not differ, all forty bytes are those of the digest. -/
theorem Entry.Matches.hash {l : Line} {hashResult : Words} (h : (l.entry hashResult).Matches) :
    l.hash = sha1HashBufString hashResult := by
  have hstring : sha1HashBufString hashResult = cString l.hash := h
  have hhead : cString l.hash <+: l.hash := List.takeWhile_prefix _
  rw [hstring]
  refine (hhead.eq_of_length ?_).symm
  rw [← hstring, sha1HashBufString_length, l.hash_length]

theorem Entry.Matches.expects {l : Line} {hashResult : Words} (h : (l.entry hashResult).Matches) :
    Expects l.hash hashResult := by
  rw [h.hash]
  exact expects_printed hashResult

/-- Behind the loop only the machine changes. -/
theorem finishChecking_within (p : Platform σ ι) (c : Checking σ ι) : ∃ st, (finishChecking p c).2 = c.within st := by
  simp only [finishChecking]
  split
  · split <;> exact ⟨_, rfl⟩
  · exact ⟨_, rfl⟩

section
variable {bytes : List Byte} {data : Nat → Byte} {fuel : Nat} {st : State σ ι} {r : Outcome × Checking σ ι}

/-- Some complete lines at the head of the content: an earlier file cannot be measured,
or the loop gets behind them. -/
theorem checkEntries_head (hdata : slice data 0 bytes.length = bytes)
    (h : checkEntries p data bytes.length fuel (.start st) = some r) {lines : List Line} {rest : List Byte}
    (hbytes : bytes = content lines ++ rest) (hshort : ∀ l ∈ lines, l.path.length < fileNameBuf) :
    measureAll p lines st = none ∧ Refused (.start st) lines r ∨
      ∃ (digests : List Words) (c' : Checking σ ι) (fuel' : Nat), measureAll p lines st = some (digests, c'.st) ∧
        digests.length = lines.length ∧ Behind p (.start st) lines digests c' ∧
        slice data c'.currLength rest.length = rest ∧
        checkEntries p data (c'.currLength + rest.length : Nat) fuel' c' = some r := by
  have hlen : bytes.length = (content lines).length + rest.length := by rw [hbytes, List.length_append]
  rw [hlen, Memory.slice_add, Nat.zero_add, hbytes] at hdata
  obtain ⟨hlines, hrest⟩ := List.append_inj hdata (Memory.slice_length _ _ _)
  have hrun := checkEntries_lines (p := p) lines (c := .start st) hshort hlines
    (by rw [hlen]; simp only [Checking.start]; omega) h
  have hmeasure := passLines_measured (p := p) lines (.start st)
  cases hall : measureAll p lines st with
  | none =>
    rw [show (Checking.start st).st = st from rfl, hall] at hmeasure
    rw [hmeasure] at hrun
    exact .inl ⟨rfl, hrun⟩
  | some m =>
    obtain ⟨digests, st'⟩ := m
    rw [show (Checking.start st).st = st from rfl, hall] at hmeasure
    obtain ⟨hcount, c', hpass, rfl, hbehind⟩ := hmeasure
    rw [hpass] at hrun
    obtain ⟨fuel', hrun⟩ := hrun
    have hcurr : c'.currLength = (content lines).length := hbehind.currLength.trans (Nat.zero_add _)
    rw [hlen, ← hcurr] at hrun
    rw [← hcurr] at hrest
    exact .inr ⟨digests, c', fuel', rfl, hcount, hbehind, hrest, hrun⟩

/-- Where the indices stay within the content. -/
theorem inside_iff (hdata : slice data 0 bytes.length = bytes)
    (h : checkEntries p data bytes.length fuel (.start st) = some r) :
    (∀ i ∈ r.2.used, i < bytes.length) ↔ ∀ lines rest, bytes = content lines ++ rest →
      (∀ l ∈ lines, l.path.length < fileNameBuf) → Cut rest → measureAll p lines st = none := by
  constructor
  · intro hinside lines rest hbytes hshort hcut
    rcases checkEntries_head hdata h hbytes hshort with ⟨hnone, -⟩ | ⟨digests, c', fuel', -, -, hbehind, hrest, hrun⟩
    · exact hnone
    · obtain ⟨i, hi, hbound⟩ := checkEntries_cut hrest hcut hrun
      have hlt := hinside i hi
      rw [hbytes, List.length_append] at hlt
      rw [hbehind.currLength] at hbound
      simp only [Checking.start] at hbound
      omega
  · intro hcond
    obtain ⟨lines, rest, hbytes, hshort, hstop⟩ := lines_exist bytes
    have hlen : bytes.length = (content lines).length + rest.length := by rw [hbytes, List.length_append]
    rcases checkEntries_head hdata h hbytes hshort with ⟨-, hrefused⟩ | ⟨digests, c', fuel', hall, -, hbehind, hrest, hrun⟩
    · intro i hi
      rcases hrefused.used i hi with hi | hi
      · cases hi
      · simp only [Checking.start] at hi
        omega
    · have hcurr : c'.currLength = (content lines).length := hbehind.currLength.trans (Nat.zero_add _)
      have hused : c'.used = List.range' 0 (content lines).length := hbehind.used
      rcases hstop with rfl | hcut | hno | hlong
      · obtain ⟨st', hfinish⟩ := finishChecking_within p c'
        intro i hi
        rw [checkEntries_done hrun, hfinish, Checking.within, hused, List.mem_range'_1] at hi
        omega
      · rw [hcond lines rest hbytes hshort hcut] at hall
        cases hall
      · have hroom := hno.1
        intro i hi
        rw [checkEntries_noBlank hrest hno hrun, Checking.using, hused, hcurr, List.mem_append, List.mem_range'_1,
          List.mem_range'_1] at hi
        omega
      · have hroom := hlong.1
        intro i hi
        rw [checkEntries_tooLong hrest hlong hrun, Checking.using, hused, hcurr, List.mem_append, List.mem_range'_1,
          List.mem_range'_1] at hi
        omega

end

/-! ## `load_checkfile` -/

/-- The file opens, it is as long as `bytes`, and when the buffer holds it, it is read
without an error, to `data`, and closed. -/
structure Reads (p : Platform σ ι) (stack : Nat → Byte) (st : State σ ι) (checkfile : FileName) (bytes : List Byte)
    (data : Nat → Byte) (st' : State σ ι) : Prop where
  opened : (grubOpen p (unmeasured st) checkfile).1 = true
  size : (grubOpen p (unmeasured st) checkfile).2.filemax = bytes.length
  read : bytes.length ≤ myBufferSize → ∃ s, grubRead p (grubOpen p (unmeasured st) checkfile).2 (.local stack) bytes.length =
    ((bytes.length : Int), data, s) ∧ grubClose p s = some st'
  data : slice data 0 bytes.length = bytes

/-- The machine at boot. -/
def booted : State Unit Unit := .atBoot () () 640 65536

end TrustedGrub.Boot
