import TrustedGrub.Disk.CalculateSha1

/-!
# `load_checkfile`

The routine of `boot.c` behind the `checkfile` command: it reads a list of files with
their reference digests, measures each of them, compares, and extends `PCR_CHECKFILE`.
The buffer lies on the stack, so that what a pass reads behind the end of the list are
bytes that nobody has chosen.
-/

namespace TrustedGrub.Boot
open Fips180 (Byte Word Words)
open Disk

variable {σ ι : Type}

def pcrCheckfile : Nat := 13

/-- `MY_BUFFER_SIZE`. -/
def myBufferSize : Nat := 2 * tcgBufferSize

/-- A string of C ends at the first zero. -/
def cString (bytes : List Byte) : List Byte := bytes.takeWhile fun c => c ≠ 0

/-- What `%x` prints for a number below sixteen. -/
def hexChar (n : Nat) : Byte := BitVec.ofNat 8 (if n < 10 then 0x30 + n else 0x57 + n)

/-- `(hash_result[i]>>28)&0x0f` and so on. -/
def nibbles (w : Word) : List Nat :=
  [28, 24, 20, 16, 12, 8, 4, 0].map fun shift => ((w >>> shift) &&& 0x0F#32).toNat

/-- The forty digits of a digest. -/
def hashNibbles (hashResult : Words) : List Nat :=
  nibbles hashResult.a ++ nibbles hashResult.b ++ nibbles hashResult.c ++ nibbles hashResult.d ++ nibbles hashResult.e

/-- `sha1_hash_buf_string`. -/
def sha1HashBufString (hashResult : Words) : List Byte := (hashNibbles hashResult).map hexChar

/-- `calculate_sha1 (file_name_buf, hash_result, 0)`. A name that is too long for
`grub_open` does not come back; those of a checkfile are shorter. -/
def measureFile (p : Platform σ ι) (st : State σ ι) (fileName : List Byte) : Option (Option Words × State σ ι) :=
  if h : fileName.length ≤ 1500 then calculateSha1 p st ⟨fileName, h⟩ else none

/-- An entry that has been processed. -/
structure Entry where
  hashInput : List Byte
  fileName : List Byte
  hashResult : Words

/-- `strcmp (sha1_hash_buf_string, hash_input_buf)` finds no difference. -/
def Entry.Matches (e : Entry) : Prop := sha1HashBufString e.hashResult = cString e.hashInput

instance (e : Entry) : Decidable e.Matches := inferInstanceAs (Decidable (_ = _))

/-- The locals of the loop, with the history of what it has done. -/
structure Checking (σ ι : Type) where
  currLength : Nat
  generalError : Nat
  /-- The indices it has used into `check_file_data`. -/
  used : List Nat
  processed : List Entry
  /-- The names behind which it has printed "Integrity Error!" -/
  reported : List (List Byte)
  /-- `update_pcr (pcr, hash_result)`. -/
  extended : List (Nat × Words)
  st : State σ ι

def Checking.start (st : State σ ι) : Checking σ ι := ⟨0, 0, [], [], [], [], st⟩

def Checking.using (c : Checking σ ι) (indices : List Nat) : Checking σ ι := { c with used := c.used ++ indices }

/-- The state of the machine changes. -/
def Checking.within (c : Checking σ ι) (st : State σ ι) : Checking σ ι := { c with st := st }

/-- An entry has been measured: it is compared, and reported or extended. -/
def Checking.checked (p : Platform σ ι) (c : Checking σ ι) (e : Entry) : Checking σ ι :=
  { c with
    generalError := if e.Matches then c.generalError else c.generalError + 1
    processed := c.processed ++ [e]
    reported := if e.Matches then c.reported else c.reported ++ [e.fileName]
    extended := if e.Matches ∧ p.tpm then c.extended ++ [(pcrCheckfile, e.hashResult)] else c.extended }

/-- The loop goes on at `currLength`. -/
def Checking.at (c : Checking σ ι) (currLength : Nat) : Checking σ ι := { c with currLength := currLength }

/-- The scan of a file name: the indices it has used, the bytes it has stored, and
whether it has found the end of the line. -/
structure NameScan where
  used : List Nat
  bytes : List Byte
  ended : Bool

/-- The inner loop from the index `curr` on, with room for so many bytes. -/
def readName (data : Nat → Byte) : Nat → Nat → NameScan
  | 0, _ => ⟨[], [], false⟩
  | room + 1, curr =>
    if data curr = 0x0A then ⟨[curr], [], true⟩
    else
      let later := readName data room (curr + 1)
      ⟨curr :: later.used, data curr :: later.bytes, later.ended⟩

/-- The size of `file_name_buf`. -/
def fileNameBuf : Nat := 1024

/-- How `load_checkfile` ends: with a result, or with the machine stopped. -/
inductive Outcome where
  | returned (code : Int)
  | stopped
  deriving DecidableEq

/-- One pass through the outer loop. -/
inductive EntryPass (σ ι : Type) where
  | goesOn (c : Checking σ ι)
  | ends (outcome : Outcome) (c : Checking σ ι)

def checkEntry (p : Platform σ ι) (data : Nat → Byte) (c : Checking σ ι) : EntryPass σ ι :=
  let blank := c.currLength + 40
  let hashInput := Memory.slice data c.currLength 40
  let c := c.using (List.range' c.currLength 41)
  if data blank ≠ 0x20 then .ends (.returned 1) c
  else
    let name := readName data fileNameBuf (blank + 1)
    let c := c.using name.used
    if name.ended = false then .ends (.returned (-1)) c
    else
      match measureFile p c.st (cString name.bytes) with
      | none => .ends .stopped c
      | some (none, st) => .ends (.returned (-1)) (c.within st)
      | some (some hashResult, st) =>
        .goesOn (((c.within st).checked p ⟨hashInput, cString name.bytes, hashResult⟩).at (blank + 1 + name.bytes.length + 1))

/-- `if (old_perform_sha1_value) perform_sha1 = old_perform_sha1_value`. -/
def restorePerformSha1 (st : State σ ι) : State σ ι :=
  { st with performSha1 := st.oldPerformSha1Value || st.performSha1 }

/-- A key has been read. -/
def keyRead (st : State σ ι) (driver : σ) : State σ ι := { st with driver := driver }

/-- Behind the loop: with errors, the user decides whether to go on. -/
def finishChecking (p : Platform σ ι) (c : Checking σ ι) : Outcome × Checking σ ι :=
  if c.generalError ≠ 0 then
    let (escape, driver) := p.escape c.st.driver
    let c := c.within (keyRead c.st driver)
    if escape then (.stopped, c) else (.returned 0, c.within (restorePerformSha1 c.st))
  else (.returned 0, c.within (restorePerformSha1 c.st))

/-- The outer loop, for so many passes at most; `none` when they do not do. -/
def checkEntries (p : Platform σ ι) (data : Nat → Byte) (maxLength : Int) : Nat → Checking σ ι → Option (Outcome × Checking σ ι)
  | 0, _ => none
  | fuel + 1, c =>
    if c.currLength < maxLength then
      match checkEntry p data c with
      | .goesOn c => checkEntries p data maxLength fuel c
      | .ends outcome c => some (outcome, c)
    else some (finishChecking p c)

/-- `if (perform_sha1) { old_perform_sha1_value = perform_sha1; perform_sha1 = 0; }`. -/
def unmeasured (st : State σ ι) : State σ ι :=
  { st with oldPerformSha1Value := st.performSha1 || st.oldPerformSha1Value, performSha1 := false }

/-- A name that ends within the buffer: the indices up to the end of the line are used. -/
theorem readName_ended {data : Nat → Byte} {path : List Byte} (hpath : 0x0A ∉ path) :
    ∀ {room curr : Nat}, path.length < room → Memory.slice data curr (path.length + 1) = path ++ [0x0A] →
      readName data room curr = ⟨List.range' curr (path.length + 1), path, true⟩ := by
  induction path with
  | nil =>
    intro room curr hroom hdata
    obtain ⟨room, rfl⟩ := Nat.exists_eq_add_of_lt hroom
    rw [List.length_nil, Memory.slice_succ] at hdata
    have hend : data curr = 0x0A := (List.cons.inj hdata).1
    simp only [readName, hend]
    rfl
  | cons c path ih =>
    intro room curr hroom hdata
    obtain ⟨room, rfl⟩ : ∃ r, room = r + 1 := ⟨room - 1, by simp only [List.length_cons] at hroom; omega⟩
    rw [List.length_cons, Memory.slice_succ] at hdata
    obtain ⟨rfl, hrest⟩ := List.cons.inj hdata
    have hne : data curr ≠ 0x0A := fun h => hpath (by rw [← h]; exact List.mem_cons_self)
    have hlater := ih (fun h => hpath (List.mem_cons_of_mem _ h)) (Nat.lt_of_succ_lt_succ hroom) hrest
    simp only [readName, if_neg hne, hlater]
    rfl

/-- As long as no line ends, all the indices within the room are used. -/
theorem readName_uses {data : Nat → Byte} : ∀ {room curr k : Nat}, k < room → (∀ i < k, data (curr + i) ≠ 0x0A) →
    curr + k ∈ (readName data room curr).used := by
  intro room
  induction room with
  | zero => intro curr k hk; omega
  | succ room ih =>
    intro curr k hk hno
    cases k with
    | zero =>
      simp only [readName]
      split <;> exact List.mem_cons_self
    | succ k =>
      have hne : data curr ≠ 0x0A := hno 0 (Nat.succ_pos k)
      have hlater : curr + 1 + k ∈ (readName data room (curr + 1)).used :=
        ih (Nat.lt_of_succ_lt_succ hk) fun i hi => by
          have := hno (i + 1) (Nat.succ_lt_succ hi)
          rwa [← Nat.add_assoc, Nat.add_right_comm] at this
      simp only [readName, if_neg hne]
      rw [← Nat.add_assoc, Nat.add_right_comm]
      exact List.mem_cons_of_mem _ hlater

/-- A name for which the buffer has no room. -/
theorem readName_tooLong {data : Nat → Byte} : ∀ {room curr : Nat}, (∀ i < room, data (curr + i) ≠ 0x0A) →
    (readName data room curr).used = List.range' curr room ∧ (readName data room curr).ended = false := by
  intro room
  induction room with
  | zero => intro curr _; exact ⟨rfl, rfl⟩
  | succ room ih =>
    intro curr hno
    have hne : data curr ≠ 0x0A := hno 0 (Nat.succ_pos room)
    obtain ⟨hused, hended⟩ := @ih (curr + 1) fun i hi => by
      have := hno (i + 1) (Nat.succ_lt_succ hi)
      rwa [← Nat.add_assoc, Nat.add_right_comm] at this
    simp only [readName, if_neg hne, hused, hended]
    exact ⟨rfl, trivial⟩

end TrustedGrub.Boot
