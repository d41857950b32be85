import TrustedGrub.Ntfs.RunList
import Mathlib.Tactic.Ring

/-!
# The run list reader against a decoding from the start

The reader goes forward from where the last request left it and rewinds for an earlier
one. What it says of a virtual cluster is compared with the run of the decoded list
that covers it.
-/

namespace TrustedGrub.Ntfs

/-- A run of a decoded list: its clusters, and where the first of them lies unless the run is sparse. -/
structure Run where
  length : Nat
  lcn : Option Nat
  positive : 0 < length
deriving DecidableEq

/-- The cluster that a run is recorded under, a hole under zero. -/
def Run.mark (r : Run) : Int := r.lcn.elim 0 (↑)

/-- The mapping pairs at `ptr` are those of the runs, the distances counted from `prev`. -/
inductive Encoded (mem : Mem) : Nat → Int → List Run → Prop
  | nil (ptr prev) : Encoded mem ptr prev []
  | sparse {ptr : Nat} {prev : Int} {r : Run} {runs : List Run} (hlength : leValue mem (ptr + 1) (lengthWidth mem ptr) = r.length)
      (hoffset : offsetWidth mem ptr = 0) (hlcn : r.lcn = none)
      (hrest : Encoded mem (ptr + 1 + lengthWidth mem ptr) prev runs) : Encoded mem ptr prev (r :: runs)
  | data {ptr : Nat} {prev : Int} {r : Run} {runs : List Run} {lcn : Nat} (hlength : leValue mem (ptr + 1) (lengthWidth mem ptr) = r.length)
      (hoffset : 0 < offsetWidth mem ptr) (hlcn : r.lcn = some lcn)
      (hdelta : signedValue mem (ptr + 1 + lengthWidth mem ptr) (offsetWidth mem ptr) = lcn - prev)
      (hrest : Encoded mem (ptr + 1 + lengthWidth mem ptr + offsetWidth mem ptr) lcn runs) :
      Encoded mem ptr prev (r :: runs)

/-- The clusters of the runs together. -/
def total (runs : List Run) : Nat := (runs.map Run.length).sum

@[simp] theorem total_nil : total [] = 0 := rfl

@[simp] theorem total_cons (r : Run) (runs : List Run) : total (r :: runs) = r.length + total runs := rfl

@[simp] theorem total_append (p q : List Run) : total (p ++ q) = total p + total q := by simp [total]

/-- A run list as `init_run_list` finds it in an attribute of a sound volume. The reader
only supports numbers of 32 bits. -/
structure MappingPairs (mem : Mem) (rl : Runl) (runs : List Run) : Prop where
  encoded : Encoded mem rl.start 0 runs
  covers : rl.svcn + total runs = rl.evcn + 1
  nonneg : 0 ≤ rl.svcn
  vcns : rl.evcn < 2 ^ 31 - 1
  lcns : ∀ r ∈ runs, ∀ lcn ∈ r.lcn, lcn + r.length ≤ 2 ^ 31

/-- The run that covers `vcn` and its own first cluster, the first run starting at `first`. -/
def covering : List Run → Int → Int → Option (Int × Run)
  | [], _, _ => none
  | r :: runs, first, vcn =>
    if vcn < first then none
    else if vcn < first + r.length then some (first, r)
    else covering runs (first + r.length) vcn

/-- Where the decoded list puts `vcn`, a hole being `none`, and the rest of its run. -/
def lookup (runs : List Run) (svcn vcn : Int) : Option (Option Int × Int) :=
  (covering runs svcn vcn).map fun (first, r) => (r.lcn.map fun lcn : Nat => lcn + vcn - first, r.length - vcn + first)

/-- What `read_attribute` and `get_16_cluster` take an answer of `get_run` to mean: cluster zero is a hole. -/
def meaning (answer : Option (Int × Int)) : Option (Option Int × Int) :=
  answer.map fun (cl, len) => (if cl = 0 then none else some cl, len)

theorem covering_append (p q : List Run) : ∀ (first : Int) {vcn : Int}, first + total p ≤ vcn →
    covering (p ++ q) first vcn = covering q (first + total p) vcn := by
  induction p with
  | nil => intro first vcn h; simp
  | cons r p ih =>
    intro first vcn h
    simp only [total_cons] at h
    rw [List.cons_append, covering, if_neg (by omega), if_neg (by omega), ih _ (by omega), total_cons]
    push_cast
    rw [add_assoc]

theorem covering_lt (runs : List Run) {first vcn : Int} (h : vcn < first) : covering runs first vcn = none := by
  cases runs with
  | nil => rfl
  | cons r runs => rw [covering, if_pos h]

theorem covering_ge {runs : List Run} {first vcn : Int} (h : first + total runs ≤ vcn) :
    covering runs first vcn = none := by
  rw [← List.append_nil runs, covering_append runs [] first h, covering]

theorem covering_mem {runs : List Run} {first vcn v : Int} {r : Run} (h : covering runs first vcn = some (v, r)) :
    r ∈ runs := by
  induction runs generalizing first with
  | nil => simp [covering] at h
  | cons r' runs ih =>
    rw [covering] at h
    split at h
    · cases h
    split at h
    · cases h
      exact List.mem_cons_self
    · exact List.mem_cons_of_mem _ (ih h)

theorem length_le_total {runs : List Run} {r : Run} (h : r ∈ runs) : r.length ≤ total runs := by
  obtain ⟨before, after, rfl⟩ := List.append_of_mem h
  simp only [total_append, total_cons]
  omega

/-! ## Where the reader stands -/

/-- The reader has taken the runs `read` and is before the runs `left`. -/
structure Standing (mem : Mem) (rl₀ : Runl) (read left : List Run) (rl : Runl) : Prop where
  start : rl.start = rl₀.start
  svcn : rl.svcn = rl₀.svcn
  evcn : rl.evcn = rl₀.evcn
  next : rl.vcn + rl.clen = rl.svcn + total read
  encoded : Encoded mem rl.ptr rl.cnum0 left
  origin : 0 ≤ rl.cnum0 ∧ rl.cnum0 < 2 ^ 31
  before : read = [] → rl.vcn = rl.svcn
  current : ∀ earlier r, read = earlier ++ [r] → rl.clen = r.length ∧ rl.cnum = r.mark

theorem MappingPairs.rewind {mem : Mem} {rl₀ rl : Runl} {runs : List Run} (h : MappingPairs mem rl₀ runs)
    (hstart : rl.start = rl₀.start) (hsvcn : rl.svcn = rl₀.svcn) (hevcn : rl.evcn = rl₀.evcn) :
    Standing mem rl₀ [] runs rl.rewind where
  start := hstart
  svcn := hsvcn
  evcn := hevcn
  next := by simp [Runl.rewind]
  encoded := by
    have := h.encoded
    rwa [← hstart] at this
  origin := by simp [Runl.rewind]
  before _ := rfl
  current earlier r h := by simp at h

variable {mem : Mem} {rl₀ rl : Runl} {runs read left : List Run} {r : Run}

theorem MappingPairs.length_lt (h : MappingPairs mem rl₀ (read ++ r :: left)) :
    rl₀.svcn + total read + r.length < 2 ^ 31 := by
  have hcovers := h.covers
  have hvcns := h.vcns
  simp only [total_append, total_cons] at hcovers
  omega

theorem Standing.getNextRun (h : MappingPairs mem rl₀ (read ++ r :: left)) (hs : Standing mem rl₀ read (r :: left) rl) :
    ∃ rl', getNextRun mem rl = (true, rl') ∧ Standing mem rl₀ (read ++ [r]) left rl' ∧ rl'.vcn = rl₀.svcn + total read := by
  have hlt := h.length_lt
  have hnonneg := h.nonneg
  have hpositive := r.positive
  have hcovers := h.covers
  simp only [total_append, total_cons] at hcovers
  have hnext : int32 (rl.vcn + rl.clen) = rl₀.svcn + total read := by
    rw [hs.next, hs.svcn]
    exact int32_of_lt (by omega) (by omega)
  have hclen : ∀ n, leValue mem (rl.ptr + 1) n = r.length → (addBytes mem n (rl.ptr + 1) 0 1).1 = r.length := by
    intro n hn
    rw [addBytes_eq mem n _ (by decide) (by decide), hn, zero_add, one_mul]
    simp only
    exact int32_of_lt (by omega) (by omega)
  have hlast : ∀ earlier r', read ++ [r] = earlier ++ [r'] → r = r' := by
    intro earlier r' heq
    exact (List.append_inj' heq rfl).2 |> List.singleton_inj.1
  unfold Ntfs.getNextRun
  simp only [hnext]
  rw [if_neg (by rw [hs.evcn]; omega)]
  cases hs.encoded with
  | sparse hlength hoffset hlcn hrest =>
    rw [if_pos hoffset, hclen _ hlength]
    refine ⟨_, rfl, ?_, rfl⟩
    constructor
    · exact hs.start
    · exact hs.svcn
    · exact hs.evcn
    · simp only [total_append, total_cons, total_nil, hs.svcn]; push_cast; ring
    · exact hrest
    · exact hs.origin
    · intro h; simp at h
    · intro earlier r' heq
      obtain rfl := hlast earlier r' heq
      simp [hlcn, Run.mark]
  | @data _ _ _ _ lcn hlength hoffset hlcn hdelta hrest =>
    have hfits := h.lcns r (by simp) lcn hlcn
    have hcnum : int32 (rl.cnum0 + signExtend
        (addBytes mem (offsetWidth mem rl.ptr) (rl.ptr + 1 + lengthWidth mem rl.ptr) 0 1).1
        (addBytes mem (offsetWidth mem rl.ptr) (rl.ptr + 1 + lengthWidth mem rl.ptr) 0 1).2) = lcn := by
      rw [signExtend_addBytes mem hoffset, hdelta, int32_add_right]
      rw [add_sub_cancel]
      exact int32_of_lt (by omega) (by omega)
    rw [if_neg (by omega), hclen _ hlength, hcnum]
    refine ⟨_, rfl, ?_, rfl⟩
    constructor
    · exact hs.start
    · exact hs.svcn
    · exact hs.evcn
    · simp only [total_append, total_cons, total_nil, hs.svcn]; push_cast; ring
    · exact hrest
    · simp only; omega
    · intro h; simp at h
    · intro earlier r' heq
      obtain rfl := hlast earlier r' heq
      simp [hlcn, Run.mark]

/-- The loop of `get_run` leaves the reader on a run that goes beyond `vcn`, or on the first place of the list. -/
theorem Standing.getRunLoop (h : MappingPairs mem rl₀ runs) {vcn : Int} (hvcn : vcn ≤ rl₀.evcn) :
    ∀ {left read rl}, runs = read ++ left → Standing mem rl₀ read left rl → (rl₀.svcn ≤ vcn → rl.vcn ≤ vcn) →
    ∃ rl' read' left', runs = read' ++ left' ∧ Standing mem rl₀ read' left' rl' ∧ vcn < rl₀.svcn + total read' ∧
      (rl₀.svcn ≤ vcn → rl'.vcn ≤ vcn) ∧ ∀ fuel, left.length < fuel → getRunLoop mem vcn fuel rl = some (true, rl') := by
  have hcovers := h.covers
  have hnonneg := h.nonneg
  have hvcns := h.vcns
  intro left
  induction left with
  | nil =>
    intro read rl hruns hs hle
    rw [hruns, List.append_nil] at hcovers
    have hend : vcn < rl₀.svcn + total read := by omega
    refine ⟨rl, read, [], hruns, hs, hend, hle, ?_⟩
    intro fuel hfuel
    obtain ⟨fuel, rfl⟩ := Nat.exists_eq_add_of_lt hfuel
    rw [Ntfs.getRunLoop, hs.next, hs.svcn, int32_of_lt (by omega) (by omega), if_neg (by omega)]
  | cons r left ih =>
    intro read rl hruns hs hle
    have hfits := h
    rw [hruns] at hfits
    have hlt := hfits.length_lt
    rcases Int.lt_or_le vcn (rl₀.svcn + total read) with hin | hout
    · refine ⟨rl, read, r :: left, hruns, hs, hin, hle, ?_⟩
      intro fuel hfuel
      obtain ⟨fuel, rfl⟩ := Nat.exists_eq_add_of_lt hfuel
      rw [Ntfs.getRunLoop, hs.next, hs.svcn, int32_of_lt (by omega) (by omega), if_neg (by omega)]
    · obtain ⟨rl₁, hnext, hs₁, hvcn₁⟩ := hs.getNextRun hfits
      obtain ⟨rl', read', left', hruns', hs', hbeyond, hle', hloop⟩ :=
        ih (by rw [hruns, List.append_assoc, List.singleton_append]) hs₁ (by omega)
      refine ⟨rl', read', left', hruns', hs', hbeyond, hle', ?_⟩
      intro fuel hfuel
      obtain ⟨fuel, rfl⟩ := Nat.exists_eq_add_of_lt hfuel
      rw [Ntfs.getRunLoop, hs.next, hs.svcn, int32_of_lt (by omega) (by omega), if_pos (by omega), hnext]
      apply hloop
      simp only [List.length_cons]
      omega

/-- The run before the place of the reader is the one that covers a cluster before its end. -/
theorem Standing.covering (hruns : runs = read ++ left) (hs : Standing mem rl₀ read left rl) {vcn : Int}
    (hsvcn : rl₀.svcn ≤ vcn) (hbeyond : vcn < rl₀.svcn + total read) (hle : rl.vcn ≤ vcn) :
    ∃ r, covering runs rl₀.svcn vcn = some (rl.vcn, r) ∧ rl.clen = r.length ∧ rl.cnum = r.mark := by
  have hnonempty : read ≠ [] := by
    rintro rfl
    simp only [total_nil] at hbeyond
    omega
  obtain ⟨earlier, r, hread⟩ := List.eq_nil_or_concat' read |>.resolve_left hnonempty
  obtain ⟨hclen, hcnum⟩ := hs.current earlier r hread
  have hnext := hs.next
  rw [hread, total_append, total_cons, total_nil, hs.svcn] at hnext
  rw [hread, total_append, total_cons, total_nil] at hbeyond
  have hfirst : rl.vcn = rl₀.svcn + total earlier := by omega
  refine ⟨r, ?_, hclen, hcnum⟩
  rw [hruns, hread, List.append_assoc, covering_append _ _ _ (by omega), List.singleton_append, Ntfs.covering,
    if_neg (by omega), if_pos (by omega), hfirst]

/-- The reader at some place of the list. -/
def Placed (mem : Mem) (rl₀ : Runl) (runs : List Run) (rl : Runl) : Prop :=
  ∃ read left, runs = read ++ left ∧ Standing mem rl₀ read left rl

theorem Placed.kept (hp : Placed mem rl₀ runs rl) :
    rl.start = rl₀.start ∧ rl.svcn = rl₀.svcn ∧ rl.evcn = rl₀.evcn := by
  obtain ⟨read, left, -, hs⟩ := hp
  exact ⟨hs.start, hs.svcn, hs.evcn⟩

/-- The reader on the first run, as `search_attribute` and a request for an earlier cluster leave it. -/
theorem MappingPairs.first (h : MappingPairs mem rl₀ runs) (hstart : rl.start = rl₀.start)
    (hsvcn : rl.svcn = rl₀.svcn) (hevcn : rl.evcn = rl₀.evcn) :
    Placed mem rl₀ runs (getNextRun mem rl.rewind).2 ∧ (getNextRun mem rl.rewind).2.vcn = rl₀.svcn := by
  have hs := h.rewind hstart hsvcn hevcn
  cases runs with
  | nil =>
    have hcovers := h.covers
    have hnonneg := h.nonneg
    have hvcns := h.vcns
    simp only [total_nil] at hcovers
    have hend : getNextRun mem rl.rewind = (false, rl.rewind) := by
      have hvcn : int32 (rl.svcn + 0) = rl.svcn := by
        rw [add_zero]
        exact int32_of_lt (by omega) (by omega)
      unfold getNextRun
      simp only [Runl.rewind, hvcn]
      rw [if_pos (by omega)]
    rw [hend]
    exact ⟨⟨[], [], rfl, hs⟩, hs.before rfl |>.trans hs.svcn⟩
  | cons r left =>
    obtain ⟨rl', hnext, hs', hvcn⟩ := Standing.getNextRun (show MappingPairs mem rl₀ ([] ++ r :: left) from h) hs
    rw [hnext]
    refine ⟨⟨[r], left, rfl, hs'⟩, ?_⟩
    simp only [hvcn, total_nil]
    simp

/-- What `get_run` answers on the run it has gone to. -/
def Runl.answer (rl : Runl) (vcn : Int) : Int × Int :=
  (if rl.cnum = 0 then 0 else int32 (rl.cnum + vcn - rl.vcn), int32 (rl.clen - vcn + rl.vcn))

theorem meaning_answer (hclen : rl.clen = r.length) (hcnum : rl.cnum = r.mark) (hlcn : ∀ lcn ∈ r.lcn, lcn + r.length ≤ 2 ^ 31)
    (hlength : r.length < 2 ^ 31) {vcn : Int} (hle : rl.vcn ≤ vcn) (hlt : vcn < rl.vcn + r.length) :
    meaning (some (rl.answer vcn)) = some (r.lcn.map fun lcn : Nat => lcn + vcn - rl.vcn, r.length - vcn + rl.vcn) ↔
      r.lcn ≠ some 0 := by
  have hlen : (rl.answer vcn).2 = r.length - vcn + rl.vcn := by
    rw [Runl.answer, hclen]
    exact int32_of_lt (by omega) (by omega)
  have hmeaning : meaning (some (rl.answer vcn)) =
      some (if (rl.answer vcn).1 = 0 then none else some (rl.answer vcn).1, (rl.answer vcn).2) := rfl
  rw [hmeaning, hlen, Option.some_inj, Prod.mk.injEq]
  simp only [and_true]
  cases h : r.lcn with
  | none =>
    have hhole : (rl.answer vcn).1 = 0 := by simp [Runl.answer, hcnum, Run.mark, h]
    simp [hhole]
  | some lcn =>
    have hfits := hlcn lcn h
    rw [Run.mark, h, Option.elim_some] at hcnum
    rcases Nat.eq_zero_or_pos lcn with rfl | hpos
    · have hzero : (rl.answer vcn).1 = 0 := by simp [Runl.answer, hcnum]
      simp [hzero]
    · have hcl : (rl.answer vcn).1 = lcn + vcn - rl.vcn := by
        rw [Runl.answer, hcnum, if_neg (by omega)]
        exact int32_of_lt (by omega) (by omega)
      rw [hcl, if_neg (by omega)]
      simp only [Option.map_some, ne_eq, Option.some_inj, true_iff]
      omega

/-- The answers of `get_run` from any place of the list. -/
theorem Placed.getRun (h : MappingPairs mem rl₀ runs) (hp : Placed mem rl₀ runs rl) (vcn : Int) :
    ∃ answer rl', (∀ fuel, runs.length < fuel → getRun mem fuel rl vcn = some (answer, rl')) ∧ Placed mem rl₀ runs rl' ∧
      (meaning answer = lookup runs rl₀.svcn vcn ↔
        rl₀.svcn ≤ vcn ∧ ∀ first r, covering runs rl₀.svcn vcn = some (first, r) → r.lcn ≠ some 0) := by
  have hcovers := h.covers
  obtain ⟨hstart, hsvcn, hevcn⟩ := hp.kept
  rcases Int.lt_or_le rl.evcn vcn with hafter | hin
  · -- beyond the list, for the reader and for the decoding
    have hnone : Ntfs.covering runs rl₀.svcn vcn = none := covering_ge (by omega)
    refine ⟨none, rl, ?_, hp, ?_⟩
    · intro fuel _
      rw [Ntfs.getRun, if_pos hafter]
    · rw [lookup, hnone]
      constructor
      · intro _
        exact ⟨by omega, by simp⟩
      · intro _
        rfl
  · -- the reader goes on from a place at or before the cluster, where there is one
    have hfrom : ∃ rl₁, (if vcn < rl.vcn then (Ntfs.getNextRun mem rl.rewind).2 else rl) = rl₁ ∧ Placed mem rl₀ runs rl₁ ∧
        (rl₀.svcn ≤ vcn → rl₁.vcn ≤ vcn) := by
      split
      · obtain ⟨hplaced, hvcn⟩ := h.first hstart hsvcn hevcn
        exact ⟨_, rfl, hplaced, by rw [hvcn]; exact id⟩
      · exact ⟨rl, rfl, hp, by omega⟩
    obtain ⟨rl₁, hrl₁, ⟨read, left, hruns, hs⟩, hle⟩ := hfrom
    obtain ⟨rl', read', left', hruns', hs', hbeyond, hle', hloop⟩ :=
      Standing.getRunLoop h (hevcn ▸ hin) hruns hs hle
    refine ⟨some (rl'.answer vcn), rl', ?_, ⟨read', left', hruns', hs'⟩, ?_⟩
    · intro fuel hfuel
      have hleft : left.length < fuel := by
        rw [hruns, List.length_append] at hfuel
        omega
      rw [Ntfs.getRun, if_neg (by omega), hrl₁]
      simp only
      rw [hloop fuel hleft]
      rfl
    · rcases Int.lt_or_le vcn rl₀.svcn with hbefore | hsvcn'
      · rw [lookup, covering_lt _ hbefore]
        simp only [meaning, Option.map_some, Option.map_none, reduceCtorEq, false_iff, not_and]
        omega
      · obtain ⟨r, hcovering, hclen, hcnum⟩ := hs'.covering hruns' hsvcn' hbeyond (hle' hsvcn')
        have hmem := covering_mem hcovering
        have hnext := hs'.next
        have hlen := length_le_total hmem
        have hvcns := h.vcns
        have hnonneg := h.nonneg
        have hlt : vcn < rl'.vcn + r.length := by
          have := hs'.svcn
          omega
        rw [lookup, hcovering]
        simp only [Option.map_some]
        rw [meaning_answer hclen hcnum (h.lcns r hmem) (by omega) (hle' hsvcn') hlt]
        simp only [hsvcn', true_and, Option.some_inj, Prod.mk.injEq]
        constructor
        · rintro hlcn first r' ⟨-, rfl⟩
          exact hlcn
        · intro hall
          exact hall _ r ⟨rfl, rfl⟩

/-- More fuel changes no answer. -/
theorem getRunLoop_add {vcn : Int} {fuel : Nat} (k : Nat) : ∀ {rl res},
    getRunLoop mem vcn fuel rl = some res → getRunLoop mem vcn (fuel + k) rl = some res := by
  induction fuel with
  | zero => intro rl res h; cases h
  | succ fuel ih =>
    intro rl res h
    rw [Ntfs.getRunLoop] at h
    rw [Nat.succ_add, Ntfs.getRunLoop]
    split at h
    · rename_i hle
      rw [if_pos hle]
      simp only at h ⊢
      split at h
      · rename_i hmore
        rw [if_pos hmore]
        exact ih h
      · rename_i hmore
        rw [if_neg hmore]
        exact h
    · rename_i hle
      rw [if_neg hle]
      exact h

theorem getRun_add {vcn : Int} {fuel : Nat} (k : Nat) {res} (h : getRun mem fuel rl vcn = some res) :
    getRun mem (fuel + k) rl vcn = some res := by
  unfold Ntfs.getRun at h ⊢
  split at h
  · rename_i hlt
    rw [if_pos hlt]
    exact h
  · rename_i hlt
    rw [if_neg hlt]
    simp only at h ⊢
    cases hloop : getRunLoop mem vcn fuel (if vcn < rl.vcn then (Ntfs.getNextRun mem rl.rewind).2 else rl) with
    | none =>
      rw [hloop] at h
      cases h
    | some out =>
      rw [getRunLoop_add k hloop]
      rw [hloop] at h
      exact h

/-! ## Any order of requests -/

/-- The reader of the list after any requests, `search_attribute` having taken the first run. -/
inductive Reached (mem : Mem) (rl₀ : Runl) : Runl → Prop
  | opened : Reached mem rl₀ (getNextRun mem rl₀.rewind).2
  | asked {rl rl' : Runl} {fuel : Nat} {vcn : Int} {answer : Option (Int × Int)} (hreached : Reached mem rl₀ rl)
      (hrun : getRun mem fuel rl vcn = some (answer, rl')) : Reached mem rl₀ rl'

theorem Reached.placed (h : MappingPairs mem rl₀ runs) (hr : Reached mem rl₀ rl) : Placed mem rl₀ runs rl := by
  induction hr with
  | opened => exact (h.first rfl rfl rfl).1
  | @asked rl rl' fuel vcn answer _ hrun ih =>
    obtain ⟨answer', rl'', hanswer, hplaced, -⟩ := ih.getRun h vcn
    have hmore := getRun_add (runs.length + 1) hrun
    rw [hanswer _ (by omega)] at hmore
    cases hmore
    exact hplaced

/-- After any requests, `get_run` answers what a decoding from the start says of a cluster of
the list and of every cluster after it, unless the run there starts at cluster zero of the
volume, which the caller takes for a hole. -/
theorem getRun_eq_lookup_iff (h : MappingPairs mem rl₀ runs) (hr : Reached mem rl₀ rl) (vcn : Int) :
    ∃ answer rl', (∀ fuel, runs.length < fuel → getRun mem fuel rl vcn = some (answer, rl')) ∧
      (meaning answer = lookup runs rl₀.svcn vcn ↔
        rl₀.svcn ≤ vcn ∧ ∀ first r, covering runs rl₀.svcn vcn = some (first, r) → r.lcn ≠ some 0) := by
  obtain ⟨answer, rl', hanswer, -, hiff⟩ := (hr.placed h).getRun h vcn
  exact ⟨answer, rl', hanswer, hiff⟩

/-- A run of four clusters, a hole of three, and a run of two before the first. -/
def sparseList : Mem := fun a => [0x21, 0x04, 0x10, 0x01, 0x01, 0x03, 0x11, 0x02, 0xf0, 0x00].getD a 0

def sparseRuns : List Run :=
  [⟨4, some 0x110, by decide⟩, ⟨3, none, by decide⟩, ⟨2, some 0x100, by decide⟩]

/-- The list at address zero, of clusters zero to eight. -/
def sparseRunl : Runl := { start := 0, ptr := 0, svcn := 0, evcn := 8, vcn := 0, cnum0 := 0, cnum := 0, clen := 0 }

theorem sparseList_mappingPairs : MappingPairs sparseList sparseRunl sparseRuns where
  encoded := by
    apply @Encoded.data _ _ _ _ _ 0x110
    · decide
    · decide
    · rfl
    · decide
    apply Encoded.sparse
    · decide
    · decide
    · rfl
    apply @Encoded.data _ _ _ _ _ 0x100
    · decide
    · decide
    · rfl
    · decide
    apply Encoded.nil
  covers := by decide
  nonneg := by decide
  vcns := by decide
  lcns := by decide

/-- After a request for the last cluster, the second one is where it was. -/
theorem getRun_eq_lookup_iff_sparseList :
    ∃ rl, getRun sparseList 4 (getNextRun sparseList sparseRunl.rewind).2 8 = some (some (0x101, 1), rl) ∧
      ∃ answer rl', (∀ fuel, 3 < fuel → getRun sparseList fuel rl 1 = some (answer, rl')) ∧
        meaning answer = some (some 0x111, 3) := by
  have hasked : getRun sparseList 4 (getNextRun sparseList sparseRunl.rewind).2 8 =
      some (some (0x101, 1), { sparseRunl with ptr := 9, vcn := 7, cnum0 := 0x100, cnum := 0x100, clen := 2 }) := by
    decide
  obtain ⟨answer, rl', hanswer, hiff⟩ :=
    getRun_eq_lookup_iff sparseList_mappingPairs (Reached.opened.asked hasked) 1
  refine ⟨_, hasked, answer, rl', hanswer, ?_⟩
  apply hiff.2
  constructor
  · decide
  · rintro first r hr
    cases hr
    decide

/-- The run of `$Boot`, two clusters at the first cluster of the volume. -/
def bootList : Mem := fun a => [0x11, 0x02, 0x00, 0x00].getD a 0

def bootRunl : Runl := { sparseRunl with evcn := 1 }

def bootRun : Run := ⟨2, some 0, by decide⟩

theorem bootList_mappingPairs : MappingPairs bootList bootRunl [bootRun] where
  encoded := by
    apply @Encoded.data _ _ _ _ _ 0
    · decide
    · decide
    · rfl
    · decide
    apply Encoded.nil
  covers := by decide
  nonneg := by decide
  vcns := by decide
  lcns := by decide

/-- Its second cluster is cluster one of the volume, and the answer is a hole. -/
theorem bootList_hole :
    MappingPairs bootList bootRunl [bootRun] ∧ Reached bootList bootRunl (getNextRun bootList bootRunl.rewind).2 ∧
      (getRun bootList 2 (getNextRun bootList bootRunl.rewind).2 1).map (meaning ∘ Prod.fst) = some (some (none, 1)) ∧
      lookup [bootRun] bootRunl.svcn 1 = some (some 1, 1) := by
  refine ⟨bootList_mappingPairs, Reached.opened, ?_, ?_⟩
  · decide
  · decide

end TrustedGrub.Ntfs
