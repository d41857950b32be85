import TrustedGrub.Ntfs.Decoding

/-!
# Run lists and fix-ups of any content

The reader of `fsys_ntfs.c` again, each byte it touches looked up in the record it came
from: the reader fails here where the program would read or write outside the record.
-/

namespace TrustedGrub.Ntfs
open Fips180 (Byte)

/-- The loop of `addBytes` within a record. -/
def addBytesIn (record : List Byte) : Nat → Nat → Int → Int → Option (Int × Int)
  | 0, _, acc, v => some (acc, v)
  | n + 1, ptr, acc, v => do
    let byte ← record[ptr]?
    addBytesIn record n (ptr + 1) (int32 (acc + int32 (v * byte.toNat))) (int32 (v * 0x100))

/-- `get_next_run` within a record. -/
def getNextRunIn (record : List Byte) (runl : Runl) : Option (Bool × Runl) :=
  let runl := { runl with vcn := int32 (runl.vcn + runl.clen) }
  if runl.evcn < runl.vcn then some (false, runl)
  else do
    let t ← record[runl.ptr]?
    let n := t.toNat % 0x10
    let o := t.toNat / 0x10
    let (clen, _) ← addBytesIn record n (runl.ptr + 1) 0 1
    let ptr := runl.ptr + 1 + n
    if o = 0 then some (true, { runl with ptr, clen, cnum := 0 })
    else do
      let (c, v) ← addBytesIn record o ptr 0 1
      let cnum0 := int32 (runl.cnum0 + signExtend c v)
      some (true, { runl with ptr := ptr + o, clen, cnum0, cnum := cnum0 })

/-- The loop of `get_run` within a record. -/
def getRunLoopIn (record : List Byte) (vcn : Int) : Nat → Runl → Option (Bool × Runl)
  | 0, _ => none
  | fuel + 1, rl =>
    if int32 (rl.vcn + rl.clen) ≤ vcn then do
      let (more, rl) ← getNextRunIn record rl
      if more then getRunLoopIn record vcn fuel rl else some (false, rl)
    else some (true, rl)

/-- `get_run` within a record. -/
def getRunIn (record : List Byte) (fuel : Nat) (rl : Runl) (vcn : Int) : Option (Option (Int × Int) × Runl) :=
  if rl.evcn < vcn then some (none, rl)
  else do
    let (found, rl) ← (if vcn < rl.vcn then (getNextRunIn record rl.rewind).map Prod.snd else some rl).bind
      (getRunLoopIn record vcn fuel)
    if found then some (some (rl.answer vcn), rl) else some (none, rl)

/-- A run list from its start: `get_next_run` by `search_run`, which gives up where there is no run, then `get_run`. -/
def decodeIn (record : List Byte) (fuel : Nat) (rl : Runl) (vcn : Int) : Option (Option (Int × Int) × Runl) := do
  let (more, rl) ← getNextRunIn record rl.rewind
  if more then getRunIn record fuel rl vcn else some (none, rl)

/-- The record as memory, for the reader that looks nowhere else. -/
def inRecord (record : List Byte) : Mem := fun a => record.getD a 0

theorem getElem?_inRecord {record : List Byte} {p : Nat} (h : p < record.length) :
    record[p]? = some (inRecord record p) := by
  simp [inRecord, h]

theorem addBytesIn_eq (record : List Byte) (n : Nat) : ∀ (ptr : Nat) (acc v : Int), ptr + n ≤ record.length →
    addBytesIn record n ptr acc v = some (addBytes (inRecord record) n ptr acc v) := by
  induction n with
  | zero => intro ptr acc v _; rfl
  | succ n ih =>
    intro ptr acc v h
    rw [addBytesIn, getElem?_inRecord (by omega), addBytes]
    exact ih _ _ _ (by omega)

theorem addBytesIn_eq_none {record : List Byte} (n : Nat) : ∀ (ptr : Nat) (acc v : Int), 0 < n → record.length < ptr + n →
    addBytesIn record n ptr acc v = none := by
  induction n with
  | zero => intro ptr acc v hn; cases hn
  | succ n ih =>
    intro ptr acc v _ h
    rw [addBytesIn]
    rcases Nat.lt_or_ge ptr record.length with hin | hout
    · rw [getElem?_inRecord hin]
      exact ih _ _ _ (by omega) (by omega)
    · rw [List.getElem?_eq_none hout]
      rfl

theorem addBytesIn_some {record : List Byte} {n ptr : Nat} {acc v : Int} {out : Int × Int}
    (h : addBytesIn record n ptr acc v = some out) : addBytes (inRecord record) n ptr acc v = out := by
  rcases Nat.lt_or_ge record.length (ptr + n) with hout | hin
  · cases n with
    | zero =>
      cases h
      rfl
    | succ n =>
      rw [addBytesIn_eq_none _ _ _ _ (Nat.succ_pos n) hout] at h
      cases h
  · rw [addBytesIn_eq _ _ _ _ _ hin] at h
    exact Option.some_inj.1 h

/-- Where it stays in the record, this is `get_next_run`. -/
theorem getNextRunIn_some {record : List Byte} {rl : Runl} {out : Bool × Runl} (h : getNextRunIn record rl = some out) :
    getNextRun (inRecord record) rl = out := by
  unfold getNextRunIn at h
  unfold getNextRun lengthWidth offsetWidth
  simp only at h ⊢
  split at h
  · rename_i hend
    rw [if_pos hend]
    exact Option.some_inj.1 h
  rename_i hend
  rw [if_neg hend]
  obtain ⟨t, ht, h⟩ := Option.bind_eq_some_iff.1 h
  obtain ⟨⟨clen, v⟩, hlength, h⟩ := Option.bind_eq_some_iff.1 h
  have htag : inRecord record rl.ptr = t := by simp [inRecord, ht]
  rw [htag, addBytesIn_some hlength]
  simp only at h ⊢
  split at h
  · rename_i ho
    rw [if_pos ho]
    exact Option.some_inj.1 h
  · rename_i ho
    rw [if_neg ho]
    obtain ⟨⟨c, v⟩, hoffset, h⟩ := Option.bind_eq_some_iff.1 h
    rw [addBytesIn_some hoffset]
    exact Option.some_inj.1 h

/-! ## The mapping pairs that the bytes spell -/

/-- The place of the mapping pair after the one at `ptr`. -/
def nextHeader (record : List Byte) (ptr : Nat) : Nat :=
  ptr + 1 + lengthWidth (inRecord record) ptr + offsetWidth (inRecord record) ptr

/-- The place of the `i`-th mapping pair. -/
def headerAt (record : List Byte) (start i : Nat) : Nat := (nextHeader record)^[i] start

/-- The length of the run whose mapping pair is at `ptr`, as an `int` holds it. -/
def runLength (record : List Byte) (ptr : Nat) : Int :=
  int32 (leValue (inRecord record) (ptr + 1) (lengthWidth (inRecord record) ptr))

/-- The cluster that the `i`-th run starts at. -/
def firstVcn (record : List Byte) (rl : Runl) : Nat → Int
  | 0 => int32 rl.svcn
  | i + 1 => firstVcn record rl i + runLength record (headerAt record rl.start i)

/-- The `i`-th mapping pair lies in the record and is of a run of at least one cluster that ends within an `int`. -/
structure Entry (record : List Byte) (rl : Runl) (i : Nat) : Prop where
  inside : headerAt record rl.start (i + 1) ≤ record.length
  positive : 0 < runLength record (headerAt record rl.start i)
  fits : firstVcn record rl (i + 1) < 2 ^ 31

theorem headerAt_succ (record : List Byte) (start i : Nat) :
    headerAt record start (i + 1) = nextHeader record (headerAt record start i) :=
  Function.iterate_succ_apply' _ _ _

variable {record : List Byte} {rl : Runl}

theorem getNextRunIn_end (h : rl.evcn < int32 (rl.vcn + rl.clen)) :
    getNextRunIn record rl = some (false, { rl with vcn := int32 (rl.vcn + rl.clen) }) := by
  unfold getNextRunIn
  simp only
  rw [if_pos h]

/-- The mapping pair at `ptr` is read as far as it goes. -/
theorem getNextRunIn_outside (h : int32 (rl.vcn + rl.clen) ≤ rl.evcn) (hout : record.length < nextHeader record rl.ptr) :
    getNextRunIn record rl = none := by
  unfold getNextRunIn
  simp only
  rw [if_neg (by omega)]
  rcases Nat.lt_or_ge rl.ptr record.length with hptr | hptr
  · rw [getElem?_inRecord hptr]
    unfold nextHeader lengthWidth offsetWidth at hout
    generalize inRecord record rl.ptr = t at hout
    simp only [Option.bind_eq_bind, Option.bind_some]
    rcases Nat.lt_or_ge record.length (rl.ptr + 1 + t.toNat % 0x10) with hlen | hlen
    · rw [addBytesIn_eq_none _ _ _ _ (by omega) hlen]
      rfl
    · rw [addBytesIn_eq _ _ _ _ _ hlen, Option.bind_some, if_neg (by omega),
        addBytesIn_eq_none _ _ _ _ (by omega) (by omega)]
      rfl
  · rw [List.getElem?_eq_none hptr]
    rfl

theorem getNextRunIn_inside (h : int32 (rl.vcn + rl.clen) ≤ rl.evcn) (hin : nextHeader record rl.ptr ≤ record.length) :
    ∃ rl', getNextRunIn record rl = some (true, rl') ∧ rl'.start = rl.start ∧ rl'.svcn = rl.svcn ∧ rl'.evcn = rl.evcn ∧
      rl'.vcn = int32 (rl.vcn + rl.clen) ∧ rl'.ptr = nextHeader record rl.ptr ∧ rl'.clen = runLength record rl.ptr := by
  have hlength : (addBytes (inRecord record) (lengthWidth (inRecord record) rl.ptr) (rl.ptr + 1) 0 1).1 =
      runLength record rl.ptr := by
    rw [addBytes_eq _ _ _ (by decide) (by decide), zero_add, one_mul]
    simp only [runLength]
  unfold nextHeader at hin ⊢
  unfold getNextRunIn
  simp only
  rw [if_neg (by omega), getElem?_inRecord (by omega)]
  simp only [Option.bind_eq_bind, Option.bind_some]
  unfold lengthWidth offsetWidth at *
  rw [addBytesIn_eq _ _ _ _ _ (by omega), Option.bind_some, hlength]
  generalize runLength record rl.ptr = clen
  split
  · rename_i ho
    refine ⟨_, rfl, rfl, rfl, rfl, rfl, ?_, rfl⟩
    simp only [ho, add_zero]
  · rw [addBytesIn_eq _ _ _ _ _ (by omega), Option.bind_some]
    exact ⟨_, rfl, rfl, rfl, rfl, rfl, rfl, rfl⟩

/-! ## The walk -/

/-- The runs that the decoding accepts on its way to a cluster, each as `get_next_run` leaves the reader. -/
inductive Taken (record : List Byte) (rl : Runl) (vcn : Int) : Runl → Prop
  | first {rl'} (hnext : getNextRunIn record rl.rewind = some (true, rl')) : Taken record rl vcn rl'
  | more {rl' rl''} (htaken : Taken record rl vcn rl') (hevcn : vcn ≤ rl.evcn) (hloop : int32 (rl'.vcn + rl'.clen) ≤ vcn)
      (hnext : getNextRunIn record rl' = some (true, rl'')) : Taken record rl vcn rl''

/-- The decoding reads inside the record, comes to an end, and goes forward with each run it accepts. -/
structure WalksSafely (record : List Byte) (rl : Runl) (vcn : Int) : Prop where
  ends : ∃ fuel, (decodeIn record fuel rl vcn).isSome
  advances : ∀ rl', Taken record rl vcn rl' → 0 < rl'.clen ∧ rl'.vcn < int32 (rl'.vcn + rl'.clen)

/-- The run list is empty, or its mapping pairs as far as the one that covers `vcn` are in order. -/
def Listed (record : List Byte) (rl : Runl) (vcn : Int) : Prop :=
  int32 rl.svcn ≤ rl.evcn → Entry record rl 0 ∧
    (vcn ≤ rl.evcn → ∃ k, (∀ i ≤ k, Entry record rl i) ∧ vcn < firstVcn record rl (k + 1))

/-- The reader has taken the `i`-th run. -/
structure OnRun (record : List Byte) (rl : Runl) (i : Nat) (rl' : Runl) : Prop where
  start : rl'.start = rl.start
  svcn : rl'.svcn = rl.svcn
  evcn : rl'.evcn = rl.evcn
  vcn : rl'.vcn = firstVcn record rl i
  ptr : rl'.ptr = headerAt record rl.start (i + 1)
  clen : rl'.clen = runLength record (headerAt record rl.start i)

theorem int32_lt (x : Int) : -2 ^ 31 ≤ int32 x ∧ int32 x < 2 ^ 31 := by
  unfold int32
  have hlo := @Int.le_bmod x (2 ^ 32) (by decide)
  have hhi := @Int.bmod_lt x (2 ^ 32) (by decide)
  norm_num at hlo hhi ⊢
  omega

/-- A number past the largest `int` comes out below. -/
theorem lt_int32_add {v n : Int} (hv : -2 ^ 31 ≤ v ∧ v < 2 ^ 31) (hn : 0 < n ∧ n < 2 ^ 31) :
    v < int32 (v + n) ↔ v + n < 2 ^ 31 := by
  constructor
  · intro h
    by_contra hge
    have hwrap : int32 (v + n) = v + n - 2 ^ 32 := by
      have hsub : int32 (v + n - 2 ^ 32) = int32 (v + n) := by
        have := int32_sub_pow (n := 4) (by decide) (v + n)
        norm_num at this ⊢
        exact this
      rw [← hsub]
      exact int32_of_lt (by omega) (by omega)
    omega
  · intro h
    rw [int32_of_lt (by omega) (by omega)]
    omega

theorem OnRun.advances_iff {i : Nat} {rl' : Runl} (hon : OnRun record rl i rl') (hvcn : -2 ^ 31 ≤ rl'.vcn ∧ rl'.vcn < 2 ^ 31)
    (hinside : headerAt record rl.start (i + 1) ≤ record.length) :
    0 < rl'.clen ∧ rl'.vcn < int32 (rl'.vcn + rl'.clen) ↔ Entry record rl i := by
  have hfirst : firstVcn record rl (i + 1) = rl'.vcn + rl'.clen := by rw [firstVcn, hon.vcn, hon.clen]
  have hclen : rl'.clen < 2 ^ 31 := by
    rw [hon.clen]
    exact (int32_lt _).2
  constructor
  · rintro ⟨hpositive, hadvance⟩
    rw [lt_int32_add hvcn ⟨hpositive, hclen⟩] at hadvance
    exact ⟨hinside, hon.clen ▸ hpositive, hfirst ▸ hadvance⟩
  · intro hentry
    have hpositive : 0 < rl'.clen := hon.clen ▸ hentry.positive
    have hfits := hentry.fits
    rw [hfirst] at hfits
    exact ⟨hpositive, (lt_int32_add hvcn ⟨hpositive, hclen⟩).2 hfits⟩

theorem firstVcn_int {i : Nat} (hentries : ∀ j < i, Entry record rl j) :
    -2 ^ 31 ≤ firstVcn record rl i ∧ firstVcn record rl i < 2 ^ 31 := by
  induction i with
  | zero => exact int32_lt _
  | succ i ih =>
    obtain ⟨hlo, -⟩ := ih fun j hj => hentries j (by omega)
    have hlast := hentries i (by omega)
    have hpositive := hlast.positive
    have hfits := hlast.fits
    rw [firstVcn] at hfits ⊢
    omega

/-- A run that is accepted is the next one, and its mapping pair is in the record. -/
theorem getNextRunIn_true {rl' : Runl} (h : getNextRunIn record rl = some (true, rl')) :
    int32 (rl.vcn + rl.clen) ≤ rl.evcn ∧ nextHeader record rl.ptr ≤ record.length ∧
      rl'.start = rl.start ∧ rl'.svcn = rl.svcn ∧ rl'.evcn = rl.evcn ∧
      rl'.vcn = int32 (rl.vcn + rl.clen) ∧ rl'.ptr = nextHeader record rl.ptr ∧ rl'.clen = runLength record rl.ptr := by
  rcases Int.lt_or_le rl.evcn (int32 (rl.vcn + rl.clen)) with hend | hevcn
  · rw [getNextRunIn_end hend] at h
    cases h
  rcases Nat.lt_or_ge record.length (nextHeader record rl.ptr) with hout | hin
  · rw [getNextRunIn_outside hevcn hout] at h
    cases h
  obtain ⟨rl'', hnext, hfields⟩ := getNextRunIn_inside hevcn hin
  rw [hnext] at h
  cases h
  exact ⟨hevcn, hin, hfields⟩

theorem OnRun.first {rl' : Runl} (h : getNextRunIn record rl.rewind = some (true, rl')) :
    OnRun record rl 0 rl' ∧ headerAt record rl.start 1 ≤ record.length := by
  obtain ⟨-, hin, hstart, hsvcn, hevcn, hvcn, hptr, hclen⟩ := getNextRunIn_true h
  simp only [Runl.rewind, add_zero] at hvcn
  exact ⟨⟨hstart, hsvcn, hevcn, hvcn, hptr, hclen⟩, hin⟩

theorem OnRun.more {i : Nat} {rl' rl'' : Runl} (hon : OnRun record rl i rl') (hentry : ∀ j ≤ i, Entry record rl j)
    (h : getNextRunIn record rl' = some (true, rl'')) :
    OnRun record rl (i + 1) rl'' ∧ headerAt record rl.start (i + 2) ≤ record.length := by
  obtain ⟨-, hin, hstart, hsvcn, hevcn, hvcn, hptr, hclen⟩ := getNextRunIn_true h
  have hfirst : rl'.vcn + rl'.clen = firstVcn record rl (i + 1) := by rw [firstVcn, hon.vcn, hon.clen]
  obtain ⟨hlo, hhi⟩ := firstVcn_int (i := i + 1) fun j hj => hentry j (by omega)
  rw [hfirst, int32_of_lt hlo hhi] at hvcn
  rw [hon.ptr] at hin hptr hclen
  rw [← headerAt_succ] at hin hptr
  exact ⟨⟨hstart.trans hon.start, hsvcn.trans hon.svcn, hevcn.trans hon.evcn, hvcn, hptr, hclen⟩, hin⟩

/-- Where the loop goes on from a run, it is to the start of the next one. -/
theorem OnRun.next {i : Nat} {rl' : Runl} (hon : OnRun record rl i rl') (hentry : ∀ j ≤ i, Entry record rl j) :
    int32 (rl'.vcn + rl'.clen) = firstVcn record rl (i + 1) := by
  have hfirst : rl'.vcn + rl'.clen = firstVcn record rl (i + 1) := by rw [firstVcn, hon.vcn, hon.clen]
  obtain ⟨hlo, hhi⟩ := firstVcn_int (i := i + 1) fun j hj => hentry j (by omega)
  rw [hfirst, int32_of_lt hlo hhi]

/-- From a run in order, a safe loop comes to one that covers the cluster. -/
theorem WalksSafely.loop {vcn : Int} (hsafe : WalksSafely record rl vcn) (hvcn : vcn ≤ rl.evcn) :
    ∀ (fuel : Nat) {i rl'}, OnRun record rl i rl' → (∀ j ≤ i, Entry record rl j) → Taken record rl vcn rl' →
      (getRunLoopIn record vcn fuel rl').isSome → ∃ k, (∀ j ≤ k, Entry record rl j) ∧ vcn < firstVcn record rl (k + 1) := by
  intro fuel
  induction fuel with
  | zero => intro i rl' _ _ _ h; cases h
  | succ fuel ih =>
    intro i rl' hon hentry htaken h
    rw [getRunLoopIn] at h
    rcases Int.lt_or_le vcn (int32 (rl'.vcn + rl'.clen)) with hcovers | hloop
    · rw [hon.next hentry] at hcovers
      exact ⟨i, hentry, hcovers⟩
    rw [if_pos hloop] at h
    have hevcn := hon.evcn
    have hle : int32 (rl'.vcn + rl'.clen) ≤ rl'.evcn := by omega
    rcases Nat.lt_or_ge record.length (nextHeader record rl'.ptr) with hout | hin
    · rw [getNextRunIn_outside hle hout] at h
      cases h
    obtain ⟨rl'', hnext, -⟩ := getNextRunIn_inside hle hin
    have hmore := htaken.more hvcn hloop hnext
    obtain ⟨hon', hinside⟩ := hon.more hentry hnext
    have hint : -2 ^ 31 ≤ rl''.vcn ∧ rl''.vcn < 2 ^ 31 := by
      rw [hon'.vcn]
      exact firstVcn_int fun j hj => hentry j (by omega)
    have hentry' := (hon'.advances_iff hint hinside).1 (hsafe.advances rl'' hmore)
    rw [hnext] at h
    apply ih hon' _ hmore h
    intro j hj
    rcases Nat.lt_or_ge i j with hij | hij
    · exact (by omega : j = i + 1) ▸ hentry'
    · exact hentry j hij

/-- From a run in order, the loop comes to the one that covers the cluster where all between are in order. -/
theorem OnRun.loop {vcn : Int} {k : Nat} (hvcn : vcn ≤ rl.evcn) (hentry : ∀ j ≤ k, Entry record rl j)
    (hcovers : vcn < firstVcn record rl (k + 1)) :
    ∀ (d : Nat) {i rl'}, i + d = k → OnRun record rl i rl' → ∃ fuel, (getRunLoopIn record vcn fuel rl').isSome := by
  intro d
  induction d with
  | zero =>
    intro i rl' hi hon
    obtain rfl : i = k := by omega
    refine ⟨1, ?_⟩
    rw [getRunLoopIn, hon.next hentry, if_neg (by omega)]
    rfl
  | succ d ih =>
    intro i rl' hi hon
    have hentry' : ∀ j ≤ i, Entry record rl j := fun j hj => hentry j (by omega)
    rcases Int.lt_or_le vcn (int32 (rl'.vcn + rl'.clen)) with hin | hloop
    · refine ⟨1, ?_⟩
      rw [getRunLoopIn, if_neg (by omega)]
      rfl
    have hevcn := hon.evcn
    have hinside : nextHeader record rl'.ptr ≤ record.length := by
      rw [hon.ptr, ← headerAt_succ]
      exact (hentry (i + 1) (by omega)).inside
    obtain ⟨rl'', hnext, -⟩ := getNextRunIn_inside (by omega) hinside
    obtain ⟨fuel, hfuel⟩ := ih (i := i + 1) (by omega) (hon.more hentry' hnext).1
    refine ⟨fuel + 1, ?_⟩
    rw [getRunLoopIn, if_pos hloop, hnext]
    exact hfuel

theorem OnRun.rewind {i : Nat} {rl' : Runl} (hon : OnRun record rl i rl') : rl'.rewind = rl.rewind := by
  simp only [Runl.rewind, hon.start, hon.svcn, hon.evcn]

/-- After the first run, a request goes into the loop from there. -/
theorem OnRun.decodeIn {rl' : Runl} (hon : OnRun record rl 0 rl') (hnext : getNextRunIn record rl.rewind = some (true, rl'))
    (fuel : Nat) (vcn : Int) :
    (decodeIn record fuel rl vcn).isSome ↔ (vcn ≤ rl.evcn → (getRunLoopIn record vcn fuel rl').isSome) := by
  have hfrom : (if vcn < rl'.vcn then (getNextRunIn record rl'.rewind).map Prod.snd else some rl') = some rl' := by
    rw [hon.rewind, hnext]
    split
    · rfl
    · rfl
  rw [Ntfs.decodeIn, hnext]
  simp only [Option.bind_eq_bind, Option.bind_some, if_true]
  rw [getRunIn, hon.evcn]
  rcases Int.lt_or_le rl.evcn vcn with h | h
  · rw [if_pos h]
    simp only [Option.isSome_some, true_iff]
    omega
  · rw [if_neg (by omega), hfrom]
    simp only [Option.bind_eq_bind, Option.bind_some, h, true_imp_iff]
    cases getRunLoopIn record vcn fuel rl' with
    | none => rfl
    | some out =>
      simp only [Option.bind_some, Option.isSome_some, iff_true]
      split
      · rfl
      · rfl

theorem firstVcn_le {k i : Nat} (hk : k ≤ i) (hentry : ∀ j < i, Entry record rl j) :
    firstVcn record rl k ≤ firstVcn record rl i := by
  induction i with
  | zero => rw [Nat.le_zero.1 hk]
  | succ i ih =>
    rcases Nat.lt_or_ge i k with hik | hik
    · rw [(by omega : k = i + 1)]
    · have hprev := ih hik fun j hj => hentry j (by omega)
      have hpositive := (hentry i (by omega)).positive
      rw [firstVcn]
      omega

/-- What a walk accepts of a list in order is in order. -/
theorem Taken.onRun {vcn : Int} {rl' : Runl} (hfirst : Entry record rl 0)
    (hlisted : vcn ≤ rl.evcn → ∃ k, (∀ i ≤ k, Entry record rl i) ∧ vcn < firstVcn record rl (k + 1))
    (htaken : Taken record rl vcn rl') : ∃ i, OnRun record rl i rl' ∧ ∀ j ≤ i, Entry record rl j := by
  induction htaken with
  | first hnext =>
    refine ⟨0, (OnRun.first hnext).1, ?_⟩
    intro j hj
    exact Nat.le_zero.1 hj ▸ hfirst
  | more _ hevcn hloop hnext ih =>
    obtain ⟨i, hon, hentry⟩ := ih
    obtain ⟨k, hentries, hcovers⟩ := hlisted hevcn
    refine ⟨i + 1, (hon.more hentry hnext).1, ?_⟩
    rw [hon.next hentry] at hloop
    have hik : i < k := by
      by_contra hge
      have := firstVcn_le (k := k + 1) (i := i + 1) (by omega) fun j hj => hentry j (by omega)
      omega
    exact fun j hj => hentries j (by omega)

/-- The walk is safe exactly where the mapping pairs as far as the cluster are in order. -/
theorem WalksSafely.iff_listed (record : List Byte) (rl : Runl) (vcn : Int) :
    WalksSafely record rl vcn ↔ Listed record rl vcn := by
  have hrewind : int32 (rl.rewind.vcn + rl.rewind.clen) = int32 rl.svcn := by simp [Runl.rewind]
  rcases Int.lt_or_le rl.evcn (int32 rl.svcn) with hempty | hnonempty
  · -- nothing is read of an empty list
    have hend := @getNextRunIn_end record rl.rewind (by rw [hrewind]; exact hempty)
    constructor
    · intro _ hsvcn
      omega
    · intro _
      constructor
      · refine ⟨0, ?_⟩
        rw [decodeIn, hend]
        rfl
      · intro rl' htaken
        exfalso
        induction htaken with
        | first hnext =>
          rw [hend] at hnext
          cases hnext
        | more _ _ _ _ ih => exact ih
  · have hhead : nextHeader record rl.rewind.ptr = headerAt record rl.start 1 := rfl
    constructor
    · intro hsafe _
      obtain ⟨fuel, hends⟩ := hsafe.ends
      rcases Nat.lt_or_ge record.length (nextHeader record rl.rewind.ptr) with hout | hin
      · rw [decodeIn, getNextRunIn_outside (by rw [hrewind]; exact hnonempty) hout] at hends
        cases hends
      obtain ⟨rl', hnext, -⟩ := getNextRunIn_inside (by rw [hrewind]; exact hnonempty) hin
      obtain ⟨hon, hinside⟩ := OnRun.first hnext
      have hint : -2 ^ 31 ≤ rl'.vcn ∧ rl'.vcn < 2 ^ 31 := by
        rw [hon.vcn]
        exact int32_lt _
      have hfirst := (hon.advances_iff hint hinside).1 (hsafe.advances rl' (.first hnext))
      refine ⟨hfirst, ?_⟩
      intro hvcn
      apply hsafe.loop hvcn fuel hon _ (.first hnext) ((hon.decodeIn hnext fuel vcn).1 hends hvcn)
      intro j hj
      exact Nat.le_zero.1 hj ▸ hfirst
    · intro hlisted
      obtain ⟨hfirst, hvcn⟩ := hlisted hnonempty
      obtain ⟨rl', hnext, -⟩ := getNextRunIn_inside (by rw [hrewind]; exact hnonempty) (hhead ▸ hfirst.inside)
      have hon := (OnRun.first hnext).1
      constructor
      · rcases Int.lt_or_le rl.evcn vcn with hafter | hle
        · exact ⟨0, (hon.decodeIn hnext 0 vcn).2 (by omega)⟩
        · obtain ⟨k, hentry, hcovers⟩ := hvcn hle
          obtain ⟨fuel, hloop⟩ := OnRun.loop hle hentry hcovers k (Nat.zero_add k) hon
          exact ⟨fuel, (hon.decodeIn hnext fuel vcn).2 fun _ => hloop⟩
      · intro rl'' htaken
        obtain ⟨i, hon', hentry⟩ := htaken.onRun hfirst hvcn
        have hint : -2 ^ 31 ≤ rl''.vcn ∧ rl''.vcn < 2 ^ 31 := by
          rw [hon'.vcn]
          exact firstVcn_int fun j hj => hentry j (by omega)
        exact (hon'.advances_iff hint (hentry i le_rfl).inside).2 (hentry i le_rfl)

/-! ## Fix-ups -/

/-- `MAX_INDEX_RECORD_SIZE`, the most that the callers read for a record. -/
def maxIndexRecordSize : Nat := 16384

/-- A record as read from the disk. -/
structure Record where
  bytes : List Byte
  length_le : bytes.length ≤ maxIndexRecordSize

/-- `*(__u16 *)(record+off)`. -/
def half (record : List Byte) (off : Int) : Option Nat :=
  if 0 ≤ off then do
    let low ← record[off.toNat]?
    let high ← record[off.toNat + 1]?
    some (low.toNat + 0x100 * high.toNat)
  else none

/-- `*(__u16 *)(record+off) = value`, in a record that has the place. -/
def setHalf (record : List Byte) (off : Int) (value : Nat) : List Byte :=
  (record.set off.toNat (BitVec.ofNat 8 value)).set (off.toNat + 1) (BitVec.ofNat 8 (value / 0x100))

/-- The `while(count--)` of `fixup_record`. -/
def fixupLoop (blocksize : BitVec 16) (fixup : Nat) : Nat → Int → Int → List Byte → Option (Bool × List Byte)
  | 0, _, _, record => some (true, record)
  | count + 1, start, offset, record => do
    let last ← half record offset
    if last ≠ fixup then some (false, record)
    else do
      let value ← half record start
      fixupLoop blocksize fixup count (int32 (start + 2)) (int32 (offset + blocksize.toNat)) (setHalf record offset value)

/-- `fixup_record`, the magic as the number that its four bytes are. -/
def fixupRecord (record : List Byte) (magic : Nat) (blocksize : BitVec 16) (size : Int) : Option (Bool × List Byte) := do
  let low ← half record 0
  let high ← half record 2
  if low + 0x10000 * high ≠ magic then some (false, record)
  else do
    let start ← half record 4
    let updates ← half record 6
    let count : Int := updates - 1
    if size ≠ 0 ∧ int32 (blocksize.toNat * count) ≠ size then some (false, record)
    else do
      let fixup ← half record start
      -- `count` is tested against zero alone, and goes on below it
      fixupLoop blocksize fixup (count % 2 ^ 32).toNat (start + 2) (blocksize.toNat - 2) record

/-- Two bytes from `off` on are in the record. -/
def Inside (record : List Byte) (off : Int) : Prop := 0 ≤ off ∧ off + 2 ≤ record.length

/-- The two bytes at `off`. -/
def halfAt (record : List Byte) (off : Int) : Nat :=
  (record.getD off.toNat 0).toNat + 0x100 * (record.getD (off.toNat + 1) 0).toNat

/-- The last two bytes of the `i`-th sector of a record. -/
def sectorEnd (blocksize : BitVec 16) (i : Nat) : Int := blocksize.toNat * (i + 1) - 2

theorem half_inside {off : Int} (h : Inside record off) : half record off = some (halfAt record off) := by
  obtain ⟨hlo, hhi⟩ := h
  rw [half, if_pos hlo, getElem?_inRecord (by omega), getElem?_inRecord (by omega)]
  rfl

theorem half_outside {off : Int} (h : ¬ Inside record off) : half record off = none := by
  rw [half]
  split
  · rename_i hlo
    have hhi : record.length ≤ off.toNat + 1 := by
      unfold Inside at h
      omega
    rw [List.getElem?_eq_none hhi]
    cases record[off.toNat]? with
    | none => rfl
    | some byte => rfl
  · rfl

@[simp] theorem length_setHalf (record : List Byte) (off : Int) (value : Nat) :
    (setHalf record off value).length = record.length := by
  simp [setHalf]

/-- A store leaves the bytes of any other place. -/
theorem halfAt_setHalf {off at' : Int} (value : Nat) (hoff : 0 ≤ off) (hat : off + 2 ≤ at') :
    halfAt (setHalf record off value) at' = halfAt record at' := by
  have hother : ∀ a : Nat, off.toNat + 2 ≤ a → (setHalf record off value).getD a 0 = record.getD a 0 := by
    intro a ha
    rw [setHalf, List.getD_eq_getElem?_getD, List.getElem?_set_ne (by omega), List.getElem?_set_ne (by omega),
      List.getD_eq_getElem?_getD]
  rw [halfAt, hother _ (by omega), hother _ (by omega), halfAt]

/-- Each sector that is reached ends in the record, and so does the value for each that carries the fix-up. -/
def Fixes (record : List Byte) (blocksize : BitVec 16) (fixup : Nat) (start : Int) (i m : Nat) : Prop :=
  (∀ j < m, halfAt record (sectorEnd blocksize (i + j)) = fixup) →
    Inside record (sectorEnd blocksize (i + m)) ∧
      (halfAt record (sectorEnd blocksize (i + m)) = fixup → Inside record (start + 2 * (i + m + 1)))

theorem sectorEnd_succ (blocksize : BitVec 16) (i : Nat) :
    sectorEnd blocksize i + blocksize.toNat = sectorEnd blocksize (i + 1) := by
  simp only [sectorEnd]
  push_cast
  ring

theorem sectorEnd_le {blocksize : BitVec 16} (hblock : 2 ≤ blocksize.toNat) {i i' : Nat} (h : i < i') :
    0 ≤ sectorEnd blocksize i ∧ sectorEnd blocksize i + 2 ≤ sectorEnd blocksize i' := by
  have hfirst : blocksize.toNat * 1 ≤ blocksize.toNat * (i + 1) := Nat.mul_le_mul_left _ (by omega)
  have hstep : blocksize.toNat * (i + 1) + blocksize.toNat ≤ blocksize.toNat * (i' + 1) := by
    rw [← Nat.mul_succ]
    exact Nat.mul_le_mul_left _ (by omega)
  have hfirst' : (blocksize.toNat * 1 : Int) ≤ blocksize.toNat * (i + 1) := by exact_mod_cast hfirst
  have hstep' : (blocksize.toNat * (i + 1) + blocksize.toNat : Int) ≤ blocksize.toNat * (i' + 1) := by exact_mod_cast hstep
  simp only [sectorEnd]
  omega

/-- A sector that carries the fix-up hands on to the next. -/
theorem fixes_succ {blocksize : BitVec 16} {fixup : Nat} {start : Int} {i : Nat}
    (hmatch : halfAt record (sectorEnd blocksize i) = fixup) (m : Nat) :
    Fixes record blocksize fixup start i (m + 1) ↔ Fixes record blocksize fixup start (i + 1) m := by
  have hfirst : (∀ j < m + 1, halfAt record (sectorEnd blocksize (i + j)) = fixup) ↔
      ∀ j < m, halfAt record (sectorEnd blocksize (i + 1 + j)) = fixup := by
    constructor
    · intro h j hj
      rw [Nat.add_right_comm, Nat.add_assoc]
      exact h (j + 1) (by omega)
    · intro h j hj
      cases j with
      | zero => exact hmatch
      | succ j =>
        rw [← Nat.add_assoc, Nat.add_right_comm]
        exact h j (by omega)
  have hplace : i + (m + 1) = i + 1 + m := by omega
  have hvalue : start + 2 * ((i : Int) + (m + 1 : Nat) + 1) = start + 2 * ((i + 1 : Nat) + m + 1) := by
    push_cast
    ring
  rw [Fixes, Fixes, hfirst, hplace, hvalue]

theorem fixupLoop_isSome_iff (r : Record) (blocksize : BitVec 16) (fixup : Nat) (start : Int) (n : Nat) :
    ∀ {i : Nat} {record : List Byte}, record.length = r.bytes.length → (i = 0 ∨ 2 ≤ blocksize.toNat) →
      (∀ i' ≥ i, halfAt record (sectorEnd blocksize i') = halfAt r.bytes (sectorEnd blocksize i')) →
      ((fixupLoop blocksize fixup n (start + 2 * (i + 1)) (sectorEnd blocksize i) record).isSome ↔
        ∀ m < n, Fixes r.bytes blocksize fixup start i m) := by
  have hfits := r.length_le
  unfold maxIndexRecordSize at hfits
  induction n with
  | zero =>
    intro i record _ _ _
    simp [fixupLoop]
  | succ n ih =>
    intro i record hlength hblock hsame
    have hinside : ∀ off, Inside record off ↔ Inside r.bytes off := by
      intro off
      rw [Inside, Inside, hlength]
    rw [fixupLoop]
    by_cases hend : Inside r.bytes (sectorEnd blocksize i)
    · rw [half_inside ((hinside _).2 hend), hsame i le_rfl]
      simp only [Option.bind_eq_bind, Option.bind_some]
      by_cases hmatch : halfAt r.bytes (sectorEnd blocksize i) = fixup
      · rw [if_neg (not_not.2 hmatch)]
        by_cases hstart : Inside r.bytes (start + 2 * (i + 1))
        · -- a sector fixed; the next ends beyond it
          rw [half_inside ((hinside _).2 hstart), Option.bind_some]
          have hblock' : 2 ≤ blocksize.toNat := by
            rcases hblock with rfl | h
            · have := hend.1
              simp only [sectorEnd, Nat.cast_zero, zero_add, mul_one] at this
              omega
            · exact h
          have hnext : int32 (sectorEnd blocksize i + blocksize.toNat) = sectorEnd blocksize (i + 1) := by
            have := hend.1
            have := hend.2
            rw [int32_of_lt (by omega) (by omega), sectorEnd_succ]
          have hvalue : int32 (start + 2 * (i + 1) + 2) = start + 2 * ((i + 1 : Nat) + 1) := by
            have := hstart.1
            have := hstart.2
            rw [int32_of_lt (by omega) (by omega)]
            push_cast
            ring
          rw [hnext, hvalue, ih]
          · constructor
            · intro h m hm
              cases m with
              | zero =>
                intro _
                exact ⟨hend, fun _ => hstart⟩
              | succ m => exact (fixes_succ hmatch m).2 (h m (by omega))
            · intro h m hm
              exact (fixes_succ hmatch m).1 (h (m + 1) (by omega))
          · rw [length_setHalf, hlength]
          · exact .inr hblock'
          · intro i' hi'
            obtain ⟨hlo, hle⟩ := sectorEnd_le hblock' (by omega : i < i')
            rw [halfAt_setHalf _ hlo hle]
            exact hsame i' (by omega)
        · rw [half_outside (mt (hinside _).1 hstart)]
          simp only [Option.bind_none, Option.isSome_none, Bool.false_eq_true, false_iff]
          intro h
          exact hstart ((h 0 (by omega) (by simp)).2 hmatch)
      · rw [if_pos hmatch]
        simp only [Option.isSome_some, true_iff]
        intro m hm hfirst
        cases m with
        | zero => exact ⟨hend, fun h => absurd h hmatch⟩
        | succ m => exact absurd (hfirst 0 (by omega)) hmatch
    · rw [half_outside (mt (hinside _).1 hend)]
      simp only [Option.bind_eq_bind, Option.bind_none, Option.isSome_none, Bool.false_eq_true, false_iff]
      intro h
      exact hend (h 0 (by omega) (by simp)).1

/-- The record is not the one asked for, or not of the size asked for, or its fix-up
array and the sectors it is for, as far as they carry the fix-up, lie in the record. -/
def Fixable (record : List Byte) (magic : Nat) (blocksize : BitVec 16) (size : Int) : Prop :=
  4 ≤ record.length ∧ (halfAt record 0 + 0x10000 * halfAt record 2 = magic →
    8 ≤ record.length ∧ (size = 0 ∨ int32 (blocksize.toNat * (halfAt record 6 - 1)) = size →
      Inside record (halfAt record 4) ∧
        ∀ i < ((halfAt record 6 - 1 : Int) % 2 ^ 32).toNat,
          Fixes record blocksize (halfAt record (halfAt record 4)) (halfAt record 4) 0 i))

/-- `fixup_record` stays in the record exactly where it has the place for what its header tells. -/
theorem fixupRecord_isSome_iff (r : Record) (magic : Nat) (blocksize : BitVec 16) (size : Int) :
    (fixupRecord r.bytes magic blocksize size).isSome ↔ Fixable r.bytes magic blocksize size := by
  have hplace : ∀ off : Int, 0 ≤ off → off + 2 ≤ r.bytes.length → Inside r.bytes off := fun _ hlo hhi => ⟨hlo, hhi⟩
  have hbeyond : ∀ off : Int, r.bytes.length < off + 2 → ¬ Inside r.bytes off := fun _ hlt h => absurd h.2 (by omega)
  rw [fixupRecord, Fixable]
  rcases Nat.lt_or_ge r.bytes.length 4 with hshort | hmagic
  · rw [half_outside (hbeyond 2 (by omega))]
    simp only [Option.bind_eq_bind, Option.bind_none, Option.bind_fun_none, Option.isSome_none, Bool.false_eq_true, false_iff]
    omega
  rw [half_inside (hplace 0 (by decide) (by omega)), half_inside (hplace 2 (by decide) (by omega))]
  simp only [Option.bind_eq_bind, Option.bind_some]
  split
  · rename_i hother
    simp only [Option.isSome_some, true_iff]
    exact ⟨hmagic, fun h => absurd h hother⟩
  rename_i hsame
  simp only [hmagic, true_and, not_not.1 hsame, true_imp_iff]
  rcases Nat.lt_or_ge r.bytes.length 8 with hshort | hheader
  · rw [half_outside (hbeyond 6 (by omega))]
    simp only [Option.bind_none, Option.bind_fun_none, Option.isSome_none, Bool.false_eq_true, false_iff]
    omega
  rw [half_inside (hplace 4 (by decide) (by omega)), half_inside (hplace 6 (by decide) (by omega))]
  simp only [Option.bind_some, hheader, true_and]
  split
  · rename_i hsize
    simp only [Option.isSome_some, true_iff]
    rintro (h | h)
    · exact absurd h hsize.1
    · exact absurd h hsize.2
  rename_i hsize
  have hsize' : size = 0 ∨ int32 (blocksize.toNat * (halfAt r.bytes 6 - 1)) = size := by
    by_contra h
    exact hsize ⟨fun h0 => h (.inl h0), fun h1 => h (.inr h1)⟩
  simp only [hsize', true_imp_iff]
  by_cases hstart : Inside r.bytes (halfAt r.bytes 4)
  · rw [half_inside hstart, Option.bind_some]
    have hloop := fixupLoop_isSome_iff r blocksize (halfAt r.bytes (halfAt r.bytes 4)) (halfAt r.bytes 4)
      ((halfAt r.bytes 6 - 1 : Int) % 2 ^ 32).toNat (i := 0) rfl (.inl rfl) (fun _ _ => rfl)
    simp only [sectorEnd, Nat.cast_zero, zero_add, mul_one] at hloop
    rw [hloop]
    simp only [hstart, true_and]
  · rw [half_outside hstart]
    simp only [Option.bind_none, Option.isSome_none, Bool.false_eq_true, hstart, false_and]

/-- The two walks over content from the disk stay in the record they are in, and come to
an end, exactly where the run list is in order as far as the cluster asked for and the
fix-up array and its sectors lie in the record. -/
theorem walks_safe_iff (record : List Byte) (rl : Runl) (vcn : Int) (r : Record) (magic : Nat) (blocksize : BitVec 16) (size : Int) :
    (WalksSafely record rl vcn ↔ Listed record rl vcn) ∧
      ((fixupRecord r.bytes magic blocksize size).isSome ↔ Fixable r.bytes magic blocksize size) := by
  constructor
  · exact WalksSafely.iff_listed record rl vcn
  · exact fixupRecord_isSome_iff r magic blocksize size

/-- A run of two clusters and the terminator. -/
def shortList : List Byte := [0x11, 0x02, 0x20, 0x00]

/-- In an attribute of five clusters the terminator is taken for a run of none, and the
next mapping pair is looked for behind the record. -/
theorem shortList_unsafe :
    ¬ WalksSafely shortList { start := 0, ptr := 0, svcn := 0, evcn := 4, vcn := 0, cnum0 := 0, cnum := 0, clen := 0 } 3 := by
  intro h
  have htaken : Taken shortList { start := 0, ptr := 0, svcn := 0, evcn := 4, vcn := 0, cnum0 := 0, cnum := 0, clen := 0 } 3
      { start := 0, ptr := 4, svcn := 0, evcn := 4, vcn := 2, cnum0 := 0x20, cnum := 0, clen := 0 } := by
    apply @Taken.more _ _ _ { start := 0, ptr := 3, svcn := 0, evcn := 4, vcn := 0, cnum0 := 0x20, cnum := 0x20, clen := 2 }
    · exact Taken.first (by decide)
    · decide
    · decide
    · decide
  exact absurd (h.advances _ htaken).1 (by decide)

end TrustedGrub.Ntfs
