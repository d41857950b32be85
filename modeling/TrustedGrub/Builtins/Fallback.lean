import Mathlib.Data.List.Infix
import TrustedGrub.Builtins.DriveMap
import TrustedGrub.Disk.BlockName
import TrustedGrub.Lib.Loop

/-!
# The fallback entries

`fallback_func`, which reads the numbers of its argument into an array of fixed size, and the loop of `cmain` that takes those
numbers out again that are not entries of the menu. The end of the list is marked by a negative number, for which a full array has
no room.
-/

namespace TrustedGrub.Builtins
open Fips180 (Byte)
open Disk (GrubError digitOf parseDigits safeParseMaxint)
open Loop (Flow loop)

def maxFallbackEntries : Nat := 8

/-- `fallback_entries` -/
structure FallbackEntries where
  list : List Int
  size : list.length = maxFallbackEntries

namespace FallbackEntries

def get (e : FallbackEntries) (i : Nat) : Int := e.list.getD i 0

/-- `fallback_entries[i] = entry` -/
def store (e : FallbackEntries) (i : Nat) (entry : Int) : FallbackEntries := ⟨e.list.set i entry, by rw [List.length_set, e.size]⟩

/-- `grub_memmove (fallback_entries + i, fallback_entries + i + 1, ..)` of all that lie behind. The last one stays where it is. -/
def moveDown (e : FallbackEntries) (i : Nat) : FallbackEntries where
  list := (e.list.take i ++ e.list.drop (i + 1) ++ e.list.drop (maxFallbackEntries - 1)).take maxFallbackEntries
  size := by
    have hsize := e.size
    simp only [List.length_take, List.length_append, List.length_drop, hsize, maxFallbackEntries]
    omega

end FallbackEntries

/-- `fallback_entries` and `fallback_entryno` -/
structure Fallback where
  entries : FallbackEntries
  entryno : Int

/-! ## `fallback_func` -/

/-- The loop over the characters of the argument: the number of entries at its end, or the error. Each pass reads a digit at least,
so that the length of the argument bounds the passes. -/
def fallbackLoop : Nat → List Byte → Nat → FallbackEntries → Except GrubError Nat × FallbackEntries
  | 0, _, i, e => (.ok i, e)
  | fuel + 1, arg, i, e =>
    if arg = [] then (.ok i, e)
    else
      match safeParseMaxint arg with
      | .error err => (.error err, e)
      | .ok (entry, arg) =>
        -- a duplicate: `continue` without a `skip_to`
        if (List.range i).any fun j => e.get j = entry then fallbackLoop fuel arg i e
        else if i + 1 = maxFallbackEntries then (.ok (i + 1), e.store i entry)
        else fallbackLoop fuel (skipTo false arg) (i + 1) (e.store i entry)

/-- `fallback_func` -/
def fallbackFunc (arg : List Byte) (s : Fallback) : Except GrubError Unit × Fallback :=
  match fallbackLoop arg.length arg 0 s.entries with
  | (.error err, e) => (.error err, { s with entries := e })
  | (.ok i, e) => (.ok (), ⟨if i < maxFallbackEntries then e.store i (-1) else e, if i = 0 then -1 else 0⟩)

/-! ## The loop of `cmain` -/

/-- One pass: an entry that is not in the menu is overwritten by those behind it, and its place is looked at again. The
configuration may have been left with an error, and `grub_memmove` moves nothing then. -/
def validatePass (errnum : GrubError) (numEntries : Int) (i : Nat) (e : FallbackEntries) : Flow Nat FallbackEntries Unit :=
  if i < maxFallbackEntries then
    if e.get i < 0 then .done () e
    else if numEntries ≤ e.get i then .next i (if errnum = .none then e.moveDown i else e)
    else .next (i + 1) e
  else .done () e

/-- Make sure that all fallback entries are valid. -/
def validate (fuel : Nat) (errnum : GrubError) (numEntries : Int) (s : Fallback) : Option Fallback :=
  if 0 ≤ s.entryno then
    (loop (validatePass errnum numEntries) fuel 0 s.entries).map fun r => ⟨r.2, if r.2.get 0 < 0 then -1 else s.entryno⟩
  else some s

/-! ## What the argument says -/

/-- The numbers at the beginnings of the words, each with the text that stands directly behind it, and the text from the first word on
that does not begin with a number. -/
def numbers : Nat → List Byte → List (Int × List Byte) × List Byte
  | 0, arg => ([], arg)
  | fuel + 1, arg =>
    if arg = [] then ([], [])
    else
      match safeParseMaxint arg with
      | .error _ => ([], arg)
      | .ok (n, behind) =>
        let (ns, left) := numbers fuel (skipTo false behind)
        (((n : Int), behind) :: ns, left)

/-- A number that has been seen is not taken again. -/
def addNew (seen : List Int) (n : Int × List Byte) : List Int := if n.1 ∈ seen then seen else seen ++ [n.1]

/-- The distinct numbers in the order of their first occurrences. -/
def distinct (ns : List (Int × List Byte)) : List Int := ns.foldl addNew []

/-- The numbers of an argument that there is room for. -/
def listed (arg : List Byte) : List Int := (distinct (numbers arg.length arg).1).take maxFallbackEntries

/-- The array is a list of entries: these, and the end mark if there is room for it. -/
structure FallbackEntries.Holds (e : FallbackEntries) (l : List Int) : Prop where
  entries : l <+: e.list
  mark : l.length < maxFallbackEntries → e.list[l.length]? = some (-1)

/-! ## Numbers and what stands behind them -/

theorem parseDigits_rest {mult : Nat} {ptr rest : List Byte} {v n : Nat} {found : Bool} (h : parseDigits mult ptr v found = .ok (n, rest)) :
    rest.length ≤ ptr.length ∧ (found = false → rest.length < ptr.length) ∧ ∀ c ∈ rest.head?, digitOf mult c = none := by
  induction ptr generalizing v found with
  | nil =>
    rw [parseDigits] at h
    split at h
    next hfound =>
      cases h
      exact ⟨Nat.le_refl _, fun hnot => absurd (hfound.symm.trans hnot) Bool.noConfusion, fun c hc => by cases hc⟩
    · cases h
  | cons c ptr ih =>
    rw [parseDigits] at h
    split at h
    next hnone =>
      split at h
      next hfound =>
        cases h
        refine ⟨Nat.le_refl _, fun hnot => absurd (hfound.symm.trans hnot) Bool.noConfusion, fun d hd => ?_⟩
        cases hd
        exact hnone
      · cases h
    next digit hdigit =>
      split at h
      · cases h
      · obtain ⟨hle, -, hhead⟩ := ih h
        rw [List.length_cons]
        exact ⟨by omega, fun _ => by omega, hhead⟩

theorem digitOf_ten {c : Byte} (h : digitOf 16 c = none) : digitOf 10 c = none := by
  unfold digitOf at h ⊢
  split at h
  · cases h
  next hdecimal =>
    rw [if_neg hdecimal, if_neg fun hand => absurd hand.1 (by decide), if_neg fun hand => absurd hand.1 (by decide)]

/-- A number takes up characters, and what stands behind it is not a digit. -/
theorem parse_rest {arg rest : List Byte} {n : Nat} (h : safeParseMaxint arg = .ok (n, rest)) :
    rest.length < arg.length ∧ ∀ c ∈ rest.head?, digitOf 10 c = none := by
  unfold safeParseMaxint at h
  split at h
  next c ptr =>
    split at h
    · obtain ⟨-, hlt, hhead⟩ := parseDigits_rest h
      have hlt := hlt rfl
      rw [List.length_cons, List.length_cons]
      exact ⟨by omega, fun c hc => digitOf_ten (hhead c hc)⟩
    · obtain ⟨-, hlt, hhead⟩ := parseDigits_rest h
      exact ⟨hlt rfl, hhead⟩
  · obtain ⟨-, hlt, hhead⟩ := parseDigits_rest h
    exact ⟨hlt rfl, hhead⟩

/-- No number begins there. -/
theorem parse_behind {arg rest : List Byte} {n : Nat} (h : safeParseMaxint arg = .ok (n, rest)) (hrest : rest ≠ []) :
    ∃ err, safeParseMaxint rest = .error err := by
  obtain ⟨-, hhead⟩ := parse_rest h
  cases rest with
  | nil => exact absurd rfl hrest
  | cons c rest =>
    have hc := hhead c rfl
    have hzero : c ≠ 0x30 := by
      rintro rfl
      exact absurd hc (by decide)
    refine ⟨.numberParsing, ?_⟩
    unfold safeParseMaxint
    split
    next heq => exact absurd (List.cons.inj heq).1 hzero
    · simp only [parseDigits, hc, Bool.false_eq_true, if_false]

theorem skipTo_length (arg : List Byte) : (skipTo false arg).length ≤ arg.length :=
  (List.dropWhile_suffix _).length_le.trans (List.dropWhile_suffix _).length_le

/-! ## The loop of `cmain` on a list with its end mark -/

section Validate
variable {errnum : GrubError} {numEntries : Int} {e : FallbackEntries} {kept rest junk : List Int} {x : Int}

theorem FallbackEntries.get_split (h : e.list = kept ++ x :: rest) : e.get kept.length = x := by
  rw [get, h, List.getD_eq_getElem?_getD, List.getElem?_append_right (Nat.le_refl _), Nat.sub_self]
  rfl

theorem FallbackEntries.length_split (h : e.list = kept ++ x :: rest) : kept.length < maxFallbackEntries := by
  have hsize := e.size
  rw [h, List.length_append, List.length_cons] at hsize
  omega

/-- The entry is gone, and the last one stands in the array twice. -/
theorem FallbackEntries.moveDown_split (h : e.list = kept ++ x :: rest) :
    (e.moveDown kept.length).list = kept ++ rest ++ e.list.drop (maxFallbackEntries - 1) := by
  have hsize := e.size
  have hlast : (e.list.drop (maxFallbackEntries - 1)).length = 1 := by rw [List.length_drop, hsize]; rfl
  have hdrop : e.list.drop (kept.length + 1) = rest := by rw [h, List.drop_append, Nat.add_sub_cancel_left]; simp
  have htake : e.list.take kept.length = kept := by rw [h, List.take_left]
  have hlength : (kept ++ rest ++ e.list.drop (maxFallbackEntries - 1)).length = maxFallbackEntries := by
    rw [h, List.length_append, List.length_cons] at hsize
    rw [List.length_append, List.length_append, hlast]
    omega
  show (e.list.take kept.length ++ e.list.drop (kept.length + 1) ++ e.list.drop (maxFallbackEntries - 1)).take maxFallbackEntries = _
  rw [htake, hdrop, List.take_of_length_le (Nat.le_of_eq hlength)]

theorem FallbackEntries.moveDown_last {i : Nat} (hi : i < maxFallbackEntries) :
    (e.moveDown i).get (maxFallbackEntries - 1) = e.get (maxFallbackEntries - 1) := by
  have hsize := e.size
  have hsplit : e.list = e.list.take i ++ e.get i :: e.list.drop (i + 1) := by
    rw [get, List.getD_eq_getElem?_getD, List.getElem?_eq_getElem (by omega), Option.getD_some, List.cons_getElem_drop_succ,
      List.take_append_drop]
  have hmove := moveDown_split hsplit
  have hlength : (e.list.take i).length = i := by
    rw [List.length_take]
    omega
  rw [hlength] at hmove
  have hbefore : (e.list.take i ++ e.list.drop (i + 1)).length = maxFallbackEntries - 1 := by
    rw [List.length_append, hlength, List.length_drop]
    omega
  rw [get, hmove, List.getD_eq_getElem?_getD, List.getElem?_append_right (Nat.le_of_eq hbefore), hbefore, Nat.sub_self, List.getElem?_drop,
    Nat.add_zero, get, List.getD_eq_getElem?_getD]

/-- **The run** over a list with its end mark keeps the valid entries. -/
theorem validate_marked (numEntries : Int) {rest kept junk : List Int} {e : FallbackEntries} (h : e.list = kept ++ (rest ++ -1 :: junk))
    (hnumbers : ∀ x ∈ rest, 0 ≤ x) (hmoves : errnum = .none ∨ ∀ x ∈ rest, x < numEntries) :
    ∃ fuel e' junk', loop (validatePass errnum numEntries) fuel kept.length e = some ((), e') ∧
      e'.list = kept ++ (rest.filter (· < numEntries) ++ -1 :: junk') := by
  induction rest generalizing kept junk e with
  | nil =>
    have hmark : e.get kept.length = -1 := FallbackEntries.get_split h
    have hlt : kept.length < maxFallbackEntries := FallbackEntries.length_split h
    refine ⟨1, e, junk, ?_, h⟩
    rw [loop, validatePass, if_pos hlt, hmark, if_pos (by decide)]
  | cons x rest ih =>
    have hx : e.get kept.length = x := FallbackEntries.get_split h
    have hlt : kept.length < maxFallbackEntries := FallbackEntries.length_split h
    have hpos := hnumbers x List.mem_cons_self
    have hnumbers' := fun y hy => hnumbers y (List.mem_cons_of_mem _ hy)
    have hmoves' := hmoves.imp_right fun hvalid y hy => hvalid y (List.mem_cons_of_mem _ hy)
    by_cases hvalid : x < numEntries
    · obtain ⟨fuel, e', junk', hloop, hlist⟩ :=
        ih (e := e) (by rw [h, List.append_assoc]; rfl : e.list = (kept ++ [x]) ++ _) hnumbers' hmoves'
      refine ⟨fuel + 1, e', junk', ?_, ?_⟩
      · rw [List.length_append] at hloop
        rw [loop, validatePass, if_pos hlt, hx, if_neg (by omega), if_neg (by omega)]
        exact hloop
      · rw [hlist, List.filter_cons_of_pos (p := fun y => decide (y < numEntries)) (decide_eq_true hvalid), List.append_assoc]
        rfl
    · have hmove := FallbackEntries.moveDown_split h
      obtain ⟨fuel, e', junk', hloop, hlist⟩ := @ih kept (junk ++ e.list.drop (maxFallbackEntries - 1)) (e.moveDown kept.length)
        (by rw [hmove]; simp) hnumbers' hmoves'
      refine ⟨fuel + 1, e', junk', ?_, ?_⟩
      · have hclear := hmoves.resolve_right fun hall => hvalid (hall x List.mem_cons_self)
        rw [loop, validatePass, if_pos hlt, hx, if_neg (by omega), if_pos (by omega), if_pos hclear]
        exact hloop
      · rw [hlist, List.filter_cons_of_neg (p := fun y => decide (y < numEntries)) (by simpa using hvalid)]

/-- A full array of valid entries is left as it is. -/
theorem validate_full (numEntries : Int) {rest kept : List Int} {e : FallbackEntries} (h : e.list = kept ++ rest)
    (hnumbers : ∀ x ∈ rest, 0 ≤ x ∧ x < numEntries) :
    ∃ fuel, loop (validatePass errnum numEntries) fuel kept.length e = some ((), e) := by
  induction rest generalizing kept with
  | nil =>
    have hsize := e.size
    rw [h, List.append_nil] at hsize
    refine ⟨1, ?_⟩
    rw [loop, validatePass, if_neg (by omega)]
  | cons x rest ih =>
    have hx : e.get kept.length = x := FallbackEntries.get_split h
    have hlt : kept.length < maxFallbackEntries := FallbackEntries.length_split h
    obtain ⟨hpos, hvalid⟩ := hnumbers x List.mem_cons_self
    obtain ⟨fuel, hloop⟩ := @ih (kept ++ [x]) (by rw [h, List.append_assoc]; rfl) fun y hy => hnumbers y (List.mem_cons_of_mem _ hy)
    rw [List.length_append] at hloop
    refine ⟨fuel + 1, ?_⟩
    rw [loop, validatePass, if_pos hlt, hx, if_neg (by omega), if_neg (by omega)]
    exact hloop

/-- **The step**: no end mark comes into an array without one. -/
theorem validatePass_keeps (i : Nat) (h : ∀ x ∈ e.list, 0 ≤ x) : ∀ x ∈ (validatePass errnum numEntries i e).state.list, 0 ≤ x := by
  unfold validatePass
  split
  · split
    · exact h
    · split
      · intro x hx
        split at hx
        · have hmem := List.mem_of_mem_take hx
          rw [List.mem_append, List.mem_append] at hmem
          obtain (htake | hdrop) | hlast := hmem
          · exact h x (List.mem_of_mem_take htake)
          · exact h x (List.mem_of_mem_drop hdrop)
          · exact h x (List.mem_of_mem_drop hlast)
        · exact h x hx
      · exact h
  · exact h

/-- A full array whose last entry is not valid keeps it, and the loop does not come to its end. -/
theorem validate_endless (hnumbers : ∀ x ∈ e.list, 0 ≤ x) (hlast : numEntries ≤ e.get (maxFallbackEntries - 1)) {i : Nat}
    (hi : i < maxFallbackEntries) (fuel : Nat) : loop (validatePass errnum numEntries) fuel i e = none := by
  induction fuel generalizing i e with
  | zero => rfl
  | succ fuel ih =>
    have hstay : i = maxFallbackEntries - 1 ∨ i + 1 < maxFallbackEntries := by omega
    have hget : 0 ≤ e.get i := by
      rw [FallbackEntries.get, List.getD_eq_getElem?_getD, List.getElem?_eq_getElem (by rw [e.size]; exact hi)]
      exact hnumbers _ (List.getElem_mem _)
    have hkept := @validatePass_keeps errnum numEntries e i hnumbers
    rw [validatePass, if_pos hi, if_neg (by omega)] at hkept
    rw [loop, validatePass, if_pos hi, if_neg (by omega)]
    by_cases hmove : numEntries ≤ e.get i
    · rw [if_pos hmove] at hkept ⊢
      refine ih hkept ?_ hi
      change numEntries ≤ (if errnum = .none then e.moveDown i else e).get (maxFallbackEntries - 1)
      split
      · rw [FallbackEntries.moveDown_last hi]
        exact hlast
      · exact hlast
    · rw [if_neg hmove]
      obtain rfl | hnext := hstay
      · exact absurd hlast hmove
      · exact ih hnumbers hlast hnext

/-- With an error pending, the loop does not come past an entry that is not valid. -/
theorem validate_stuck (herr : errnum ≠ .none) {i k : Nat} (hi : i < maxFallbackEntries) (hinvalid : numEntries ≤ e.get i)
    (hnumbers : ∀ j ≤ i, 0 ≤ e.get j) (hk : k ≤ i) (fuel : Nat) : loop (validatePass errnum numEntries) fuel k e = none := by
  induction fuel generalizing k with
  | zero => rfl
  | succ fuel ih =>
    rw [loop, validatePass, if_pos (Nat.lt_of_le_of_lt hk hi), if_neg (Int.not_lt.2 (hnumbers k hk)), if_neg herr]
    by_cases hvalid : numEntries ≤ e.get k
    · rw [if_pos hvalid]
      exact ih hk
    · rw [if_neg hvalid]
      obtain hlt | rfl := Nat.lt_or_eq_of_le hk
      · exact ih hlt
      · exact absurd hinvalid hvalid

end Validate

/-! ## The loop over the argument -/

theorem addNew_mem {seen : List Int} {n : Int × List Byte} (h : n.1 ∈ seen) : addNew seen n = seen := if_pos h

theorem addNew_new {seen : List Int} {n : Int × List Byte} (h : n.1 ∉ seen) : addNew seen n = seen ++ [n.1] := if_neg h

/-- What has been seen stays at the front. -/
theorem prefix_seen (seen : List Int) (ns : List (Int × List Byte)) : seen <+: ns.foldl addNew seen := by
  induction ns generalizing seen with
  | nil => exact List.prefix_refl seen
  | cons n ns ih =>
    have hrest := ih (addNew seen n)
    by_cases h : n.1 ∈ seen
    · rw [addNew_mem h] at hrest
      rw [List.foldl_cons, addNew_mem h]
      exact hrest
    · rw [addNew_new h] at hrest
      rw [List.foldl_cons, addNew_new h]
      exact (List.prefix_append _ _).trans hrest

theorem numbers_nonneg (fuel : Nat) (arg : List Byte) : ∀ n ∈ (numbers fuel arg).1, 0 ≤ n.1 := by
  induction fuel generalizing arg with
  | zero =>
    intro n hn
    cases hn
  | succ fuel ih =>
    rw [numbers]
    split
    · intro n hn
      cases hn
    · split
      · intro n hn
        cases hn
      next n behind _ =>
        intro m hm
        obtain rfl | hm := List.mem_cons.1 hm
        · exact Int.natCast_nonneg n
        · exact ih _ m hm

theorem distinct_nonneg {seen : List Int} {ns : List (Int × List Byte)} (hseen : ∀ x ∈ seen, 0 ≤ x) (hns : ∀ n ∈ ns, 0 ≤ n.1) :
    ∀ x ∈ ns.foldl addNew seen, 0 ≤ x := by
  induction ns generalizing seen with
  | nil => exact hseen
  | cons n ns ih =>
    apply ih
    · by_cases h : n.1 ∈ seen
      · rw [addNew_mem h]
        exact hseen
      · rw [addNew_new h]
        intro x hx
        obtain hx | hx := List.mem_append.1 hx
        · exact hseen x hx
        · rw [List.mem_singleton.1 hx]
          exact hns n List.mem_cons_self
    · exact fun m hm => hns m (List.mem_cons_of_mem _ hm)

/-- As long as there is room, the words begin with numbers, and behind a number that has been seen before nothing follows. -/
structure Readable (seen : List Int) (ns : List (Int × List Byte)) (left : List Byte) : Prop where
  repeated : ∀ p n q, ns = p ++ n :: q → (p.foldl addNew seen).length < maxFallbackEntries → n.1 ∈ p.foldl addNew seen → n.2 = []
  words : left = [] ∨ maxFallbackEntries ≤ (ns.foldl addNew seen).length

theorem readable_cons {seen : List Int} {n : Int × List Byte} {ns : List (Int × List Byte)} {left : List Byte} :
    Readable seen (n :: ns) left ↔
      (seen.length < maxFallbackEntries → n.1 ∈ seen → n.2 = []) ∧ Readable (addNew seen n) ns left := by
  constructor
  · intro h
    exact ⟨h.repeated [] n ns rfl, fun p m q heq => h.repeated (n :: p) m q (by rw [heq]; rfl), h.words⟩
  · rintro ⟨hfirst, hrest⟩
    refine ⟨fun p m q heq => ?_, hrest.words⟩
    cases p with
    | nil =>
      obtain ⟨rfl, rfl⟩ := List.cons.inj heq
      exact hfirst
    | cons n' p =>
      obtain ⟨rfl, rfl⟩ := List.cons.inj heq
      exact hrest.repeated p m q rfl

/-- Nothing is asked of what is not read. -/
theorem readable_full {seen : List Int} (hfull : maxFallbackEntries ≤ seen.length) (ns : List (Int × List Byte)) (left : List Byte) :
    Readable seen ns left := by
  have hle (p : List (Int × List Byte)) : maxFallbackEntries ≤ (p.foldl addNew seen).length := hfull.trans (prefix_seen seen p).length_le
  exact ⟨fun p n q _ hlt => absurd (hle p) (by omega), .inr (hle ns)⟩

/-- How the loop ends: with the numbers in the array, or with an error and the end mark not written. -/
inductive Ends (readable : Prop) (seen all : List Int) (e : FallbackEntries) : Except GrubError Nat × FallbackEntries → Prop
  | read {i : Nat} {e' : FallbackEntries} (fine : readable) (stored : all.take maxFallbackEntries <+: e'.list)
      (count : i = min maxFallbackEntries all.length) : Ends readable seen all e (.ok i, e')
  | error (err : GrubError) {e' : FallbackEntries} {k : Nat} (bad : ¬ readable) (room : k < maxFallbackEntries) (behind : seen.length ≤ k)
      (short : k ≤ all.length) (untouched : e'.list[k]? = e.list[k]?) : Ends readable seen all e (.error err, e')

/-- What is the same thing to read has the same outcome. -/
theorem Ends.imp {readable readable' : Prop} {seen all : List Int} {e : FallbackEntries} {r : Except GrubError Nat × FallbackEntries}
    (h : Ends readable seen all e r) (hiff : readable ↔ readable') : Ends readable' seen all e r := by
  rw [← propext hiff]
  exact h

section Read
variable {fuel : Nat} {arg : List Byte} {seen : List Int} {e : FallbackEntries}

theorem loop_end (fuel i : Nat) (e : FallbackEntries) : fallbackLoop fuel [] i e = (.ok i, e) := by cases fuel <;> rfl

theorem numbers_end (fuel : Nat) : numbers fuel [] = ([], []) := by cases fuel <;> rfl

/-- The loop over `j` finds what has been stored. -/
theorem duplicate_iff (hseen : seen <+: e.list) (n : Int) : ((List.range seen.length).any fun j => e.get j = n) = true ↔ n ∈ seen := by
  obtain ⟨junk, hlist⟩ := hseen
  have hget {j : Nat} (hj : j < seen.length) : e.get j = seen[j] := by
    rw [FallbackEntries.get, ← hlist, List.getD_eq_getElem?_getD, List.getElem?_append_left hj, List.getElem?_eq_getElem hj,
      Option.getD_some]
  rw [List.any_eq_true, List.mem_iff_getElem]
  constructor
  · rintro ⟨j, hj, heq⟩
    have hj := List.mem_range.1 hj
    refine ⟨j, hj, ?_⟩
    rw [← hget hj]
    exact of_decide_eq_true heq
  · rintro ⟨j, hj, heq⟩
    refine ⟨j, List.mem_range.2 hj, decide_eq_true ?_⟩
    rw [hget hj, heq]

theorem prefix_stored (hseen : seen <+: e.list) (hroom : seen.length < maxFallbackEntries) (n : Int) :
    seen ++ [n] <+: (e.store seen.length n).list := by
  obtain ⟨junk, hlist⟩ := hseen
  have hsize := e.size
  cases junk with
  | nil =>
    rw [← hlist, List.append_nil] at hsize
    omega
  | cons x junk =>
    refine ⟨junk, ?_⟩
    show seen ++ [n] ++ junk = e.list.set seen.length n
    rw [← hlist, List.set_append_right _ _ (Nat.le_refl _), Nat.sub_self, List.append_assoc]
    rfl

theorem store_behind {k : Nat} (hk : seen.length < k) (n : Int) : (e.store seen.length n).list[k]? = e.list[k]? :=
  List.getElem?_set_ne (by omega)

/-- Nothing is left to read. -/
theorem outcome_end (fuel : Nat) (hseen : seen <+: e.list) (hroom : seen.length < maxFallbackEntries) :
    Ends (Readable seen (numbers fuel []).1 (numbers fuel []).2) seen ((numbers fuel []).1.foldl addNew seen) e
      (fallbackLoop fuel [] seen.length e) := by
  rw [loop_end, numbers_end]
  refine .read ⟨fun p n q heq => ?_, .inl rfl⟩ ?_ (Nat.min_eq_right hroom.le).symm
  · cases p <;> cases heq
  · show seen.take maxFallbackEntries <+: e.list
    rw [List.take_of_length_le hroom.le]
    exact hseen

/-- **The run** over the argument. -/
theorem loop_outcome (hlen : arg.length ≤ fuel) (hseen : seen <+: e.list) (hroom : seen.length < maxFallbackEntries) :
    Ends (Readable seen (numbers fuel arg).1 (numbers fuel arg).2) seen ((numbers fuel arg).1.foldl addNew seen) e
      (fallbackLoop fuel arg seen.length e) := by
  induction fuel generalizing arg seen e with
  | zero =>
    obtain rfl := List.eq_nil_of_length_eq_zero (Nat.le_zero.1 hlen)
    exact outcome_end 0 hseen hroom
  | succ fuel ih =>
    by_cases hend : arg = []
    · rw [hend]
      exact outcome_end (fuel + 1) hseen hroom
    rw [fallbackLoop, numbers, if_neg hend, if_neg hend]
    cases hparse : safeParseMaxint arg with
    | error err =>
      refine .error err (fun h => ?_) hroom (Nat.le_refl _) (Nat.le_refl _) rfl
      obtain hnil | hfull := h.words
      · exact hend hnil
      · exact absurd hfull (Nat.not_le_of_lt hroom)
    | ok number =>
      obtain ⟨n, behind⟩ := number
      have hlt := (parse_rest hparse).1
      have hskip := skipTo_length behind
      dsimp only
      by_cases hdup : (n : Int) ∈ seen
      · -- a duplicate: the text behind it is read on as it is
        have hsame : addNew seen ((n : Int), behind) = seen := addNew_mem hdup
        rw [if_pos ((duplicate_iff hseen n).2 hdup), readable_cons, List.foldl_cons, hsame]
        by_cases hbehind : behind = []
        · subst hbehind
          have hrest := outcome_end fuel hseen hroom
          rw [show skipTo false [] = [] from rfl]
          exact hrest.imp ⟨fun h => ⟨fun _ _ => rfl, h⟩, And.right⟩
        · obtain ⟨err, herror⟩ := parse_behind hparse hbehind
          obtain ⟨fuel, rfl⟩ := Nat.exists_eq_succ_of_ne_zero (show fuel ≠ 0 by
            have hpos := List.length_pos_of_ne_nil hbehind
            omega)
          rw [fallbackLoop, if_neg hbehind, herror]
          exact .error err (fun h => hbehind (h.1 hroom hdup)) hroom (Nat.le_refl _) (prefix_seen _ _).length_le rfl
      · have hnew : addNew seen ((n : Int), behind) = seen ++ [(n : Int)] := addNew_new hdup
        have hstored := prefix_stored hseen hroom n
        have hlength : (seen ++ [(n : Int)]).length = seen.length + 1 := by rw [List.length_append]; rfl
        rw [if_neg fun hany => hdup ((duplicate_iff hseen n).1 hany), readable_cons, List.foldl_cons, hnew]
        by_cases hfull : seen.length + 1 = maxFallbackEntries
        · have hprefix := prefix_seen (seen ++ [(n : Int)]) (numbers fuel (skipTo false behind)).1
          have hall := hprefix.length_le
          rw [hlength] at hall
          rw [if_pos hfull]
          refine .read ⟨fun _ hmem => absurd hmem hdup, readable_full (by omega) _ _⟩ ?_ (by omega)
          rw [← hfull, ← hlength, ← List.prefix_iff_eq_take.1 hprefix]
          exact hstored
        · rw [if_neg hfull, ← hlength]
          have hrest := @ih (skipTo false behind) _ _ (by omega) hstored (by omega)
          generalize fallbackLoop fuel (skipTo false behind) (seen ++ [(n : Int)]).length (e.store seen.length n) = result at hrest ⊢
          cases hrest with
          | read fine stored count => exact .read ⟨fun _ hmem => absurd hmem hdup, fine⟩ stored count
          | error err bad room behind short untouched =>
            rw [hlength] at behind
            exact .error err (fun h => bad h.2) room (by omega) short (untouched.trans (store_behind (by omega) n))

end Read

/-! ## The two loops together -/

/-- Whatever the array held: the command stores the numbers it has room for, and the loop of `cmain` comes to its end and leaves
those that are entries of the menu. -/
def Right (errnum : GrubError) (numEntries : Int) (arg : List Byte) : Prop :=
  ∀ s : Fallback, (fallbackFunc arg s).2.entries.Holds (listed arg) ∧
    ∃ fuel s', validate fuel errnum numEntries (fallbackFunc arg s).2 = some s' ∧ s'.entries.Holds ((listed arg).filter (· < numEntries))

/-- No entry is taken out, or one can be, and the end mark be read. -/
def Fits (errnum : GrubError) (numEntries : Int) (l : List Int) : Prop :=
  errnum = .none ∧ l.length < maxFallbackEntries ∨ ∀ x ∈ l, x < numEntries

/-- The numbers of an argument can be read up to its end or until the array is full. -/
def Plain (arg : List Byte) : Prop := Readable [] (numbers arg.length arg).1 (numbers arg.length arg).2

theorem listed_nonneg (arg : List Byte) : ∀ x ∈ listed arg, 0 ≤ x := fun x hx =>
  distinct_nonneg (fun _ hnil => absurd hnil List.not_mem_nil) (numbers_nonneg _ _) x (List.mem_of_mem_take hx)

theorem listed_length (arg : List Byte) : (listed arg).length = min maxFallbackEntries (distinct (numbers arg.length arg).1).length :=
  List.length_take

/-- A list with the end mark behind it. -/
theorem FallbackEntries.Holds.of_mark {e : FallbackEntries} {l : List Int} (h : l ++ [-1] <+: e.list) : e.Holds l := by
  refine ⟨(List.prefix_append l [-1]).trans h, fun _ => ?_⟩
  obtain ⟨junk, hlist⟩ := h
  rw [← hlist, List.append_assoc, List.getElem?_append_right (Nat.le_refl _), Nat.sub_self]
  rfl

theorem FallbackEntries.Holds.mark_split {e : FallbackEntries} {l : List Int} (h : e.Holds l) (hlt : l.length < maxFallbackEntries) :
    ∃ junk, e.list = l ++ -1 :: junk := by
  obtain ⟨junk, hlist⟩ := h.entries
  have hmark := h.mark hlt
  rw [← hlist, List.getElem?_append_right (Nat.le_refl _), Nat.sub_self] at hmark
  cases junk with
  | nil => cases hmark
  | cons x junk =>
    rw [List.getElem?_cons_zero] at hmark
    exact ⟨junk, by rw [← hlist, Option.some.inj hmark]⟩

theorem FallbackEntries.Holds.full {e : FallbackEntries} {l : List Int} (h : e.Holds l) (hge : maxFallbackEntries ≤ l.length) :
    e.list = l :=
  (h.entries.eq_of_length_le (by rw [e.size]; exact hge)).symm

/-- The array and the number that `fallback_func` leaves where it reads the argument. -/
theorem fallbackFunc_plain {arg : List Byte} (h : Plain arg) (s : Fallback) :
    (fallbackFunc arg s).2.entries.Holds (listed arg) ∧ (fallbackFunc arg s).2.entryno = if (listed arg).length = 0 then -1 else 0 := by
  have houtcome := @loop_outcome arg.length arg [] s.entries (Nat.le_refl _) List.nil_prefix (by decide)
  rw [fallbackFunc]
  rw [List.length_nil] at houtcome
  generalize fallbackLoop arg.length arg 0 s.entries = result at houtcome ⊢
  cases houtcome with
  | error err bad => exact absurd h bad
  | @read i e fine stored count =>
    have hcount : i = (listed arg).length := count.trans (listed_length arg).symm
    have hstored : listed arg <+: e.list := stored
    subst hcount
    refine ⟨?_, rfl⟩
    show FallbackEntries.Holds (if (listed arg).length < maxFallbackEntries then e.store (listed arg).length (-1) else e) (listed arg)
    split
    next hroom => exact .of_mark (prefix_stored hstored hroom (-1))
    next hfull => exact ⟨hstored, fun hroom => absurd hroom hfull⟩

/-- Where the argument cannot be read, the end mark is missing. -/
theorem fallbackFunc_bad {arg : List Byte} (h : ¬ Plain arg) {s : Fallback}
    (hs : ∀ k < maxFallbackEntries, s.entries.list[k]? = some (-2)) :
    ¬ (fallbackFunc arg s).2.entries.Holds (listed arg) := by
  have houtcome := @loop_outcome arg.length arg [] s.entries (Nat.le_refl _) List.nil_prefix (by decide)
  have hlength := listed_length arg
  rw [fallbackFunc]
  rw [List.length_nil] at houtcome
  generalize fallbackLoop arg.length arg 0 s.entries = result at houtcome ⊢
  cases houtcome with
  | read fine => exact absurd fine h
  | @error err e k bad room _ short untouched =>
    intro hholds
    rw [hs k room] at untouched
    have hshort : k ≤ (distinct (numbers arg.length arg).1).length := short
    by_cases hk : k < (listed arg).length
    · -- the place of a number
      obtain ⟨junk, hlist⟩ := hholds.entries
      have hentry : e.list[k]? = some (listed arg)[k] := by
        have hget : e.list[k]? = (listed arg)[k]? := by
          rw [show e.list = listed arg ++ junk from hlist.symm, List.getElem?_append_left hk]
        rw [hget, List.getElem?_eq_getElem hk]
      rw [untouched, Option.some.injEq] at hentry
      have hnumber := listed_nonneg arg _ (List.getElem_mem hk)
      omega
    · have hend : (listed arg).length = k := by omega
      have hmark := hholds.mark (by omega)
      rw [hend, show (FallbackEntries.list _)[k]? = some (-2) from untouched] at hmark
      cases hmark

/-- A list with its end mark, or whose entries are all in the menu, is validated. -/
theorem validate_fits {errnum : GrubError} {numEntries : Int} {s : Fallback} {l : List Int} (hholds : s.entries.Holds l)
    (hentryno : s.entryno = if l.length = 0 then -1 else 0)
    (hnumbers : ∀ x ∈ l, 0 ≤ x) (hfits : Fits errnum numEntries l) :
    ∃ fuel s', validate fuel errnum numEntries s = some s' ∧ s'.entries.Holds (l.filter (· < numEntries)) := by
  by_cases hempty : l.length = 0
  · rw [if_pos hempty] at hentryno
    obtain rfl := List.eq_nil_of_length_eq_zero hempty
    refine ⟨0, s, ?_, hholds⟩
    rw [validate, hentryno, if_neg (by decide)]
  rw [if_neg hempty] at hentryno
  by_cases hroom : l.length < maxFallbackEntries
  · obtain ⟨junk, hlist⟩ := hholds.mark_split hroom
    obtain ⟨fuel, e', junk', hloop, hlist'⟩ :=
      @validate_marked errnum numEntries l [] junk s.entries hlist hnumbers (hfits.imp_left And.left)
    refine ⟨fuel, ⟨e', if e'.get 0 < 0 then -1 else s.entryno⟩, ?_, ?_⟩
    · rw [validate, if_pos (by omega)]
      exact congrArg (Option.map _) hloop
    · refine .of_mark ⟨junk', ?_⟩
      rw [List.append_assoc]
      exact hlist'.symm
  · have hvalid := hfits.resolve_left fun hclear => hroom hclear.2
    have hlist := hholds.full (Nat.le_of_not_lt hroom)
    obtain ⟨fuel, hloop⟩ := @validate_full errnum numEntries l [] s.entries hlist fun x hx => ⟨hnumbers x hx, hvalid x hx⟩
    refine ⟨fuel, ⟨s.entries, if s.entries.get 0 < 0 then -1 else s.entryno⟩, ?_, ?_⟩
    · rw [validate, if_pos (by omega)]
      exact congrArg (Option.map _) hloop
    · rw [List.filter_eq_self.2 fun x hx => decide_eq_true (hvalid x hx)]
      exact hholds

/-- A full array in which an entry is not in the menu gets no end mark, and with an error pending none is taken out. -/
theorem fits_of_validate {errnum : GrubError} {numEntries : Int} {arg : List Byte} (hplain : Plain arg) {s : Fallback}
    (h : ∃ fuel s', validate fuel errnum numEntries (fallbackFunc arg s).2 = some s' ∧
      s'.entries.Holds ((listed arg).filter (· < numEntries))) :
    Fits errnum numEntries (listed arg) := by
  by_contra hnot
  obtain ⟨hclear, hinvalid⟩ := not_or.1 hnot
  obtain ⟨hholds, hentryno⟩ := fallbackFunc_plain hplain s
  have hnonempty : (listed arg).length ≠ 0 := by
    intro hempty
    apply hinvalid
    rw [List.eq_nil_of_length_eq_zero hempty]
    exact nofun
  obtain ⟨fuel, s', hvalidate, hfiltered⟩ := h
  rw [if_neg hnonempty] at hentryno
  rw [validate, if_pos (by omega)] at hvalidate
  obtain ⟨⟨⟨⟩, e'⟩, hloop, rfl⟩ := Option.map_eq_some_iff.1 hvalidate
  by_cases herr : errnum = .none
  · have hroom : ¬ (listed arg).length < maxFallbackEntries := fun hroom => hclear ⟨herr, hroom⟩
    have hlist := hholds.full (Nat.le_of_not_lt hroom)
    have hnumbers : ∀ x ∈ e'.list, 0 ≤ x :=
      Loop.loop_keeps (P := fun e => ∀ x ∈ e.list, 0 ≤ x) (fun i e he => validatePass_keeps i he) hloop
        (by rw [hlist]; exact listed_nonneg arg)
    have hshorter : ((listed arg).filter (· < numEntries)).length < (listed arg).length := by
      apply lt_of_le_of_ne (List.length_filter_le _ _)
      intro hsame
      apply hinvalid
      intro x hx
      exact of_decide_eq_true (List.length_filter_eq_length_iff.1 hsame x hx)
    have hlength := listed_length arg
    have hmark := hfiltered.mark (by omega)
    have hnegative := hnumbers (-1) (List.mem_of_getElem? hmark)
    omega
  · obtain ⟨x, hx, hbehind⟩ : ∃ x ∈ listed arg, numEntries ≤ x := by
      by_contra hall
      exact hinvalid fun x hx => Int.not_le.1 fun hle => hall ⟨x, hx, hle⟩
    obtain ⟨i, hi, rfl⟩ := List.getElem_of_mem hx
    obtain ⟨junk, hlist⟩ := hholds.entries
    have hget : ∀ j (hj : j < (listed arg).length), (fallbackFunc arg s).2.entries.get j = (listed arg)[j] := by
      intro j hj
      rw [FallbackEntries.get, ← hlist, List.getD_eq_getElem?_getD, List.getElem?_append_left hj, List.getElem?_eq_getElem hj]
      rfl
    have hlength := listed_length arg
    have hstuck := validate_stuck (k := 0) herr (show i < maxFallbackEntries by omega) (hget i hi ▸ hbehind)
      (fun j hj => hget j (by omega) ▸ listed_nonneg arg _ (List.getElem_mem _)) (Nat.zero_le i) fuel
    rw [hstuck] at hloop
    cases hloop

/-- **The fallback list** is right exactly if the argument can be read and all its entries are in the menu, or the array is not full
and no error is left from the configuration. -/
theorem right_iff (errnum : GrubError) (numEntries : Int) (arg : List Byte) :
    Right errnum numEntries arg ↔ Plain arg ∧ Fits errnum numEntries (listed arg) := by
  constructor
  · intro hright
    have hplain : Plain arg := by
      by_contra hbad
      have hsize : (List.replicate maxFallbackEntries (-2 : Int)).length = maxFallbackEntries := List.length_replicate
      have hs (k : Nat) (hk : k < maxFallbackEntries) : (List.replicate maxFallbackEntries (-2 : Int))[k]? = some (-2) :=
        List.getElem?_replicate_of_lt hk
      exact fallbackFunc_bad (s := ⟨⟨_, hsize⟩, 0⟩) hbad hs (hright ⟨⟨_, hsize⟩, 0⟩).1
    exact ⟨hplain, fits_of_validate hplain (hright ⟨⟨List.replicate maxFallbackEntries 0, List.length_replicate⟩, 0⟩).2⟩
  · rintro ⟨hplain, hfits⟩ s
    obtain ⟨hholds, hentryno⟩ := fallbackFunc_plain hplain s
    exact ⟨hholds, validate_fits hholds hentryno (listed_nonneg arg) hfits⟩

/-- `init_config`: the entries at the start. -/
def Fallback.start : Fallback := ⟨⟨-1 :: List.replicate 7 0, rfl⟩, -1⟩

/-- `fallback 1 1 2` stops at the second 1, and with `fallback 0 1 2 3 4 5 6 7` and seven entries in the menu the loop does not end. -/
theorem fallback_wrong :
    ¬ Right .none 3 [0x31, 0x20, 0x31, 0x20, 0x32] ∧
      ¬ Right .none 7 [0x30, 0x20, 0x31, 0x20, 0x32, 0x20, 0x33, 0x20, 0x34, 0x20, 0x35, 0x20, 0x36, 0x20, 0x37] := by
  constructor
  · intro hright
    have hentries := (hright .start).1.entries
    rw [show listed [0x31, 0x20, 0x31, 0x20, 0x32] = [1, 2] by decide +kernel] at hentries
    exact absurd hentries (by decide +kernel)
  · intro hright
    obtain ⟨-, fuel, s', hvalidate, -⟩ := hright .start
    obtain ⟨r, hloop, -⟩ := Option.map_eq_some_iff.1 hvalidate
    rw [validate_endless (by decide +kernel) (by decide +kernel) (by decide)] at hloop
    cases hloop

end TrustedGrub.Builtins
