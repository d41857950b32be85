import TrustedGrub.Builtins.VarSprint
import TrustedGrub.Lib.Expansion

/-!
# The expansion that is reached

One pass over a string whose references are all known is its expansion, and the ten passes go from each
expansion to the next. A reference to a variable that is not there is lost, with the look at the character
behind it.
-/

namespace TrustedGrub.Builtins
open Fips180 (Byte)
open Expansion (Quotes Free Known Scan scan)
variable {s : Vars} {a buf buf' buffer buffer' j t u v nm : List Byte} {b c x : Byte} {i k n str : Nat}

/-- `$(name)` -/
def quotes : Quotes Byte := ⟨0x24, 0x28, 0x29⟩

/-- The string with the value of each variable in the place of its references. -/
def Vars.expand (s : Vars) (t : List Byte) : List Byte := Expansion.expand quotes s.get t

/-! ## Arrays -/

theorem puts_append (a t u : List Byte) (i : Nat) : puts a i (t ++ u) = (puts a i t).bind fun a => puts a (i + t.length) u := by
  induction t generalizing a i with
  | nil => rfl
  | cons c t ih =>
    rw [List.cons_append, puts, puts]
    cases put a i c with
    | none => rfl
    | some a =>
      show puts a (i + 1) (t ++ u) = (puts a (i + 1) t).bind fun a => puts a (i + (c :: t).length) u
      rw [ih, List.length_cons, Nat.add_assoc, Nat.add_comm 1]

theorem puts_singleton (a : List Byte) (i : Nat) (c : Byte) : puts a i [c] = put a i c := by
  rw [puts]
  cases put a i c <;> rfl

/-- What fits into the array. -/
theorem puts_fits (h : i + t.length ≤ a.length) : puts a i t = some (a.take i ++ (t ++ a.drop (i + t.length))) := by
  induction t generalizing a i with
  | nil => rw [puts, List.nil_append, List.length_nil, Nat.add_zero, List.take_append_drop]
  | cons c t ih =>
    rw [List.length_cons] at h ⊢
    have hlen : i + 1 + t.length ≤ (a.set i c).length := by
      rw [List.length_set]
      omega
    rw [puts, put, if_pos (by omega), Option.bind_some, ih hlen, Nat.add_assoc i 1, Nat.add_comm 1, List.drop_set_of_lt (by omega),
      List.take_succ_eq_append_getElem (by rw [List.length_set]; omega), List.getElem_set_self, List.take_set_of_le (Nat.le_refl i)]
    rw [List.append_assoc]
    rfl

/-- What does not fit. -/
theorem puts_outside (h : a.length < i + t.length) (hne : t ≠ []) : puts a i t = none := by
  induction t generalizing a i with
  | nil => exact absurd rfl hne
  | cons c t ih =>
    rw [List.length_cons] at h
    rw [puts, put]
    split
    next hlt =>
      rw [Option.bind_some]
      apply ih
      · rw [List.length_set]
        omega
      · rintro rfl
        rw [List.length_nil] at h
        omega
    next => rfl

theorem puts_some (h : puts a i t = some buf) : buf.length = a.length ∧ buf.take i = a.take i ∧ (t ≠ [] → i + t.length ≤ a.length) := by
  by_cases hfits : i + t.length ≤ a.length
  · rw [puts_fits hfits] at h
    obtain rfl := Option.some.inj h
    have htake : (a.take i).length = i := List.length_take_of_le (by omega)
    refine ⟨?_, ?_, fun _ => hfits⟩
    · rw [List.length_append, List.length_append, htake, List.length_drop]
      omega
    · exact List.take_left' htake
  · by_cases hnil : t = []
    · subst hnil
      obtain rfl := Option.some.inj h
      exact ⟨rfl, rfl, fun hne => absurd rfl hne⟩
    · rw [puts_outside (by omega) hnil] at h
      cases h

theorem cstr_of_drop (h : a.drop i = t ++ 0 :: j) (ht : (0 : Byte) ∉ t) : cstr a i = t := by
  rw [cstr, h, Packed.text_line ht]

/-- The string that begins with what has been put there. -/
theorem cstr_puts (hput : puts a i v = some buf) (hne : v ≠ []) (hkeep : buf'.take (i + v.length) = buf.take (i + v.length)) :
    cstr buf' i = Packed.text 0 (v ++ buf'.drop (i + v.length)) := by
  have hfits := (puts_some hput).2.2 hne
  rw [puts_fits hfits] at hput
  have htake : (a.take i).length = i := List.length_take_of_le (by omega)
  have hcells := congrArg (List.drop i) hkeep
  rw [← Option.some.inj hput, List.drop_take, List.drop_take, Nat.add_sub_cancel_left, List.drop_left' htake, List.take_left] at hcells
  rw [cstr, ← List.take_append_drop v.length (buf'.drop i), hcells, List.drop_drop]

theorem cstr_written (hput : puts a i v = some buf) (hv : (0 : Byte) ∉ v) (hkeep : buf'.take (i + v.length) = buf.take (i + v.length)) :
    cstr buf' i = v ++ cstr buf' (i + v.length) := by
  by_cases hne : v = []
  · rw [hne]
    rfl
  · rw [cstr_puts hput hne hkeep, cstr, Packed.text, Packed.text, List.takeWhile_append_of_pos]
    intro c hc
    exact decide_eq_true fun hzero => hv (hzero ▸ hc)

/-! ## One pass of the loop -/

theorem getElem?_of_drop (h : a.drop i = t) (k : Nat) : a[i + k]? = t[k]? := by
  rw [← h, List.getElem?_drop]

theorem sprintLoop_end (h : buffer.drop str = 0 :: j) :
    sprintLoop s (n + 1) buf i buffer str = (put buf i 0).map fun buf => (buf, buffer) := by
  have hc : buffer[str]? = some 0 := getElem?_of_drop h 0
  rw [sprintLoop, hc]
  rfl

/-- A character that no reference begins with. -/
theorem sprintLoop_copy (hx : x ≠ 0) (ht : (0 : Byte) ∉ t) (h : buffer.drop str = x :: (t ++ 0 :: j))
    (hplain : quotes.name (x :: t) = none) :
    sprintLoop s (n + 1) buf i buffer str = (put buf i x).bind fun buf => sprintLoop s n buf (i + 1) buffer (str + 1) := by
  have hc : buffer[str]? = some x := getElem?_of_drop h 0
  have hno : ¬ (x = 0x24 ∧ buffer[str + 1]? = some 0x28 ∧ buffer[endVar buffer (str + 2)]? = some 0x29) := by
    rintro ⟨hmark, hleft, hright⟩
    have hnext : buffer[str + 1]? = (t ++ 0 :: j)[0]? := getElem?_of_drop h 1
    rw [hnext] at hleft
    cases t with
    | nil => cases hleft
    | cons y t =>
      obtain rfl : y = 0x28 := Option.some.inj hleft
      have hdrop : buffer.drop (str + 2) = t ++ 0 :: j := by
        rw [← List.drop_drop, h]
        rfl
      have hnot : (0x29 : Byte) ∉ t := by
        intro hin
        rw [Quotes.name, if_pos ⟨hmark, rfl, hin⟩] at hplain
        cases hplain
      have hall : ∀ y ∈ t, decide (y ≠ 0 ∧ y ≠ 0x29) = true := by
        intro y hy
        apply decide_eq_true
        exact ⟨fun hz => ht (hz ▸ List.mem_cons_of_mem _ hy), fun hz => hnot (hz ▸ hy)⟩
      rw [endVar, hdrop, List.takeWhile_append_of_pos hall, List.takeWhile_cons_of_neg (by decide), List.append_nil,
        getElem?_of_drop hdrop, List.getElem?_append_right (Nat.le_refl _), Nat.sub_self] at hright
      cases hright
  rw [sprintLoop, hc, Option.bind_some, if_neg hx, if_neg hno]

/-- A cell is put back. -/
theorem set_back (h : a[k]? = some x) (c : Byte) : (a.set k c).set k x = a := by
  obtain ⟨hin, rfl⟩ := List.getElem?_eq_some_iff.1 h
  rw [List.set_set, List.set_getElem_self]

/-- A reference, whose variable is there or not. -/
theorem sprintLoop_reference (hn : quotes.right ∉ nm) (hz : (0 : Byte) ∉ nm) (h : buffer.drop str = quotes.reference nm ++ u) :
    sprintLoop s (n + 1) buf i buffer str =
      match s.get nm with
      | some val => (puts buf i val).bind fun buf => sprintLoop s n buf (i + val.length) buffer (str + (quotes.reference nm).length)
      | none =>
        buffer[str + (quotes.reference nm).length]?.bind fun c =>
        (put buf i c).bind fun buf => sprintLoop s n buf (i + 1) buffer (str + ((quotes.reference nm).length + 1)) := by
  have hopen : buffer.drop str = 0x24 :: 0x28 :: (nm ++ 0x29 :: u) := h.trans (Quotes.reference_append nm u)
  have hc : buffer[str]? = some 0x24 := getElem?_of_drop hopen 0
  have hleft : buffer[str + 1]? = some 0x28 := getElem?_of_drop hopen 1
  have hdrop : buffer.drop (str + 2) = nm ++ 0x29 :: u := by
    rw [← List.drop_drop, hopen]
    rfl
  have hall : ∀ y ∈ nm, decide (y ≠ 0 ∧ y ≠ 0x29) = true := by
    intro y hy
    apply decide_eq_true
    exact ⟨fun heq => hz (heq ▸ hy), fun heq => hn (show (0x29 : Byte) ∈ nm from heq ▸ hy)⟩
  have hend : endVar buffer (str + 2) = str + 2 + nm.length := by
    rw [endVar, hdrop, List.takeWhile_append_of_pos hall, List.takeWhile_cons_of_neg (by decide), List.append_nil]
  have hright : buffer[str + 2 + nm.length]? = some 0x29 := by
    rw [getElem?_of_drop hdrop, List.getElem?_append_right (Nat.le_refl _), Nat.sub_self]
    rfl
  -- The name is a string of its own while it is looked up.
  have hname : cstr (buffer.set (str + 2 + nm.length) 0) (str + 2) = nm := by
    apply cstr_of_drop (j := u) _ hz
    rw [List.drop_set, if_neg (by omega), Nat.add_sub_cancel_left, hdrop, List.set_append_right nm.length 0 (Nat.le_refl _), Nat.sub_self]
    rfl
  have hlen : (quotes.reference nm).length = nm.length + 3 := Quotes.reference_length nm
  rw [sprintLoop, hc, Option.bind_some, if_neg (by decide), hend, if_pos ⟨rfl, hleft, hright⟩]
  dsimp only
  have hback : str + 2 + nm.length + 2 = str + (nm.length + 3 + 1) := by omega
  rw [hname, set_back hright, hlen, show str + 2 + nm.length + 1 = str + (nm.length + 3) by omega]
  cases s.get nm with
  | none =>
    exact congrArg (fun k => buffer[str + (nm.length + 3)]?.bind fun c => (put buf i c).bind fun buf => sprintLoop s n buf (i + 1) buffer k)
      hback
  | some val => rfl

/-- A pass writes from `b` on, and leaves the string that it reads as it is. -/
theorem sprintLoop_frame (h : sprintLoop s n buf i buffer str = some (buf', buffer')) :
    buffer' = buffer ∧ buf'.length = buf.length ∧ buf'.take i = buf.take i := by
  induction n generalizing buf i str buffer with
  | zero => cases h
  | succ n ih =>
    have hput : ∀ {v : List Byte} {m str : Nat}, v.length = m →
      ((puts buf i v).bind fun buf => sprintLoop s n buf (i + m) buffer str) = some (buf', buffer') →
        buffer' = buffer ∧ buf'.length = buf.length ∧ buf'.take i = buf.take i := by
      intro v m str hm hrun
      obtain ⟨a, ha, hrun⟩ := Option.bind_eq_some_iff.1 hrun
      obtain ⟨hsame, hlen, htake⟩ := ih hrun
      obtain ⟨hlen', htake', -⟩ := puts_some ha
      refine ⟨hsame, hlen.trans hlen', ?_⟩
      have hfront := congrArg (List.take i) htake
      rwa [List.take_take, List.take_take, Nat.min_eq_left (Nat.le_add_right i m), htake'] at hfront
    rw [sprintLoop] at h
    obtain ⟨c, -, h⟩ := Option.bind_eq_some_iff.1 h
    split at h
    next =>
      obtain ⟨a, ha, hpair⟩ := Option.map_eq_some_iff.1 h
      obtain ⟨rfl, rfl⟩ := Prod.mk.inj hpair
      obtain ⟨hlen, htake, -⟩ := puts_some ((puts_singleton buf i 0).trans ha)
      exact ⟨rfl, hlen, htake⟩
    next =>
      split at h
      next href =>
        dsimp only at h
        rw [set_back href.2.2] at h
        split at h
        next val _ => exact hput rfl h
        next =>
          obtain ⟨c, -, h⟩ := Option.bind_eq_some_iff.1 h
          rw [← puts_singleton] at h
          exact hput rfl h
      next =>
        rw [← puts_singleton] at h
        exact hput rfl h

/-! ## A pass over a string -/

theorem drop_length {l : List Byte} (h : a.drop i = t ++ l) : a.drop (i + t.length) = l := by
  rw [← List.drop_drop, h, List.drop_left]

/-- **A string whose references are all known** is expanded. -/
theorem sprintLoop_known (hz : (0 : Byte) ∉ t) (hk : Known quotes s.get t) (h : buffer.drop str = t ++ 0 :: j) (hn : t.length < n) :
    sprintLoop s n buf i buffer str = (puts buf i (s.expand t ++ [0])).map fun buf => (buf, buffer) := by
  induction scan (q := quotes) t generalizing n buf i str with
  | nil =>
    obtain ⟨n, rfl⟩ := Nat.exists_eq_succ_of_ne_zero (Nat.ne_of_gt hn)
    rw [sprintLoop_end h]
    exact congrArg (Option.map _) (puts_singleton buf i 0).symm
  | @copy x t plain _ ih =>
    obtain ⟨n, rfl⟩ := Nat.exists_eq_succ_of_ne_zero (Nat.ne_of_gt (Nat.lt_of_le_of_lt (Nat.zero_le _) hn))
    rw [List.mem_cons, not_or] at hz
    rw [sprintLoop_copy (Ne.symm hz.1) hz.2 h plain, Vars.expand, Expansion.expand_copy plain, List.cons_append, puts]
    cases put buf i x with
    | none => rfl
    | some buf => exact ih hz.2 ((Expansion.known_copy plain).1 hk) (drop_length (t := [x]) h) (Nat.lt_of_succ_lt_succ hn)
  | @reference nm rest name _ ih =>
    obtain ⟨n, rfl⟩ := Nat.exists_eq_succ_of_ne_zero (Nat.ne_of_gt (Nat.lt_of_le_of_lt (Nat.zero_le _) hn))
    obtain ⟨hv, hrest⟩ := (Expansion.known_reference name rest).1 hk
    obtain ⟨v, hv⟩ := Option.isSome_iff_exists.1 hv
    rw [List.mem_append, not_or] at hz
    have hnm : (0 : Byte) ∉ nm := fun hin => hz.1 (Quotes.mem_reference hin)
    rw [List.length_append] at hn
    rw [List.append_assoc] at h
    rw [sprintLoop_reference name hnm h, hv, Vars.expand, Expansion.expand_reference name, hv, Option.getD_some, List.append_assoc,
      puts_append]
    dsimp only
    cases puts buf i v with
    | none => rfl
    | some buf =>
      apply ih hz.2 hrest (drop_length h)
      have := Quotes.reference_length (q := quotes) nm
      omega

/-- What a pass makes of a string. -/
inductive Drops (s : Vars) : List Byte → List Byte → Prop
  | nil : Drops s [] []
  | copy {x : Byte} {t u : List Byte} (plain : quotes.name (x :: t) = none) (tail : Drops s t u) : Drops s (x :: t) (x :: u)
  | value {nm v t u : List Byte} (name : quotes.right ∉ nm) (known : s.get nm = some v) (tail : Drops s t u) :
      Drops s (quotes.reference nm ++ t) (v ++ u)
  /-- The reference is lost, and the character behind it is copied. -/
  | lost {nm t u : List Byte} {x : Byte} (name : quotes.right ∉ nm) (unknown : s.get nm = none) (tail : Drops s t u) :
      Drops s (quotes.reference nm ++ x :: t) (x :: u)
  /-- The terminator is copied, whatever is put behind it. -/
  | last {nm : List Byte} (name : quotes.right ∉ nm) (unknown : s.get nm = none) : Drops s (quotes.reference nm) []

theorem Vars.zero_not_mem_get (h : s.get nm = some v) : (0 : Byte) ∉ v := by
  obtain ⟨i, -, hvalue⟩ := Option.bind_eq_some_iff.1 h
  obtain ⟨p, -, rfl⟩ := Option.map_eq_some_iff.1 hvalue
  exact Packed.not_mem_text _

theorem sprintLoop_drops (hz : (0 : Byte) ∉ t) (h : buffer.drop str = t ++ 0 :: j)
    (hrun : sprintLoop s n buf i buffer str = some (buf', buffer')) :
    Drops s t (cstr buf' i) := by
  induction n generalizing t buf i str with
  | zero => cases hrun
  | succ n ih =>
    cases scan (q := quotes) t with
    | nil =>
      rw [sprintLoop_end h, ← puts_singleton] at hrun
      obtain ⟨a, ha, hpair⟩ := Option.map_eq_some_iff.1 hrun
      obtain ⟨rfl, rfl⟩ := Prod.mk.inj hpair
      rw [cstr_puts ha (List.cons_ne_nil _ _) rfl]
      exact .nil
    | @copy x t plain _ =>
      rw [List.mem_cons, not_or] at hz
      rw [sprintLoop_copy (Ne.symm hz.1) hz.2 h plain, ← puts_singleton] at hrun
      obtain ⟨a, ha, hrun⟩ := Option.bind_eq_some_iff.1 hrun
      have hx : (0 : Byte) ∉ [x] := fun hin => hz.1 (List.mem_singleton.1 hin)
      rw [cstr_written ha hx (sprintLoop_frame hrun).2.2]
      exact .copy plain (ih hz.2 (drop_length (t := [x]) h) hrun)
    | @reference nm rest name _ =>
      rw [List.mem_append, not_or] at hz
      rw [List.append_assoc] at h
      have hnm : (0 : Byte) ∉ nm := fun hin => hz.1 (Quotes.mem_reference hin)
      rw [sprintLoop_reference name hnm h] at hrun
      cases hv : s.get nm with
      | some v =>
        rw [hv] at hrun
        obtain ⟨a, ha, hrun⟩ := Option.bind_eq_some_iff.1 hrun
        rw [cstr_written ha (Vars.zero_not_mem_get hv) (sprintLoop_frame hrun).2.2]
        exact .value name hv (ih hz.2 (drop_length h) hrun)
      | none =>
        rw [hv] at hrun
        obtain ⟨c, hc, hrun⟩ := Option.bind_eq_some_iff.1 hrun
        rw [← puts_singleton] at hrun
        obtain ⟨a, ha, hrun⟩ := Option.bind_eq_some_iff.1 hrun
        have hkeep := (sprintLoop_frame hrun).2.2
        have hcell := getElem?_of_drop (drop_length h) 0
        rw [Nat.add_zero, hc] at hcell
        cases rest with
        | nil =>
          obtain rfl : c = 0 := Option.some.inj hcell
          rw [cstr_puts ha (List.cons_ne_nil _ _) hkeep, List.append_nil]
          exact .last name hv
        | cons x rest =>
          obtain rfl : c = x := Option.some.inj hcell
          rw [List.mem_cons, not_or] at hz
          have hx : (0 : Byte) ∉ [c] := fun hin => hz.2.1 (List.mem_singleton.1 hin)
          rw [cstr_written ha hx hkeep]
          refine .lost name hv (ih hz.2.2 ?_ hrun)
          rw [← Nat.add_assoc]
          exact drop_length (t := [c]) (drop_length h)

/-! ## Strings that a pass leaves as they are -/

/-- The values of the variables contain no references. -/
def Vars.Plain (s : Vars) : Prop := ∀ nm v, s.get nm = some v → Free quotes v

theorem Drops.of_free (h : Drops s t u) (hfree : Free quotes t) : u = t := by
  induction h with
  | nil => rfl
  | copy plain _ ih => rw [ih hfree.tail]
  | value name _ _ _ => exact absurd hfree (Expansion.not_free name [] _)
  | lost name _ _ _ => exact absurd hfree (Expansion.not_free name [] _)
  | @last nm name _ =>
    have hno := Expansion.not_free name [] []
    rw [List.append_nil] at hno
    exact absurd hfree hno

/-- **A string that comes out behind some others** has no reference: each reference that is replaced or lost
moves what follows it to the left, for no value has a whole reference in it. -/
theorem Drops.free (hs : s.Plain) (h : Drops s t u) : ∀ z, u = z ++ t → Free quotes t := by
  induction h with
  | nil => exact fun _ _ => rfl
  | @copy x t u plain _ ih =>
    intro z hz
    apply (Expansion.names_copy plain).trans
    cases z with
    | nil => exact ih [] (List.cons.inj hz).2
    | cons y z =>
      apply ih (z ++ [x])
      rw [List.append_assoc]
      exact (List.cons.inj hz).2
  | @value nm v t u name known tail ih =>
    intro z hz
    rw [← List.append_assoc] at hz
    obtain ⟨w, hw, hu⟩ | ⟨w, hv, -⟩ := List.append_eq_append_iff.1 hz
    · have hsame := tail.of_free (ih w hu)
      have hnil : w = [] := List.self_eq_append_left.1 (hsame.symm.trans hu)
      rw [hnil, List.append_nil] at hw
      have hno := Expansion.not_free (q := quotes) name z []
      rw [List.append_nil, hw] at hno
      exact absurd (hs nm v known) hno
    · have hno := Expansion.not_free (q := quotes) name z w
      rw [← List.append_assoc, ← hv] at hno
      exact absurd (hs nm v known) hno
  | @lost nm t u x name unknown tail ih =>
    intro z hz
    have hu : u = (z ++ quotes.reference nm ++ [x]).tail ++ t := by
      have htail := congrArg List.tail hz
      rw [List.tail_cons] at htail
      rw [htail, ← List.tail_append_of_ne_nil (by simp)]
      congr 1
      simp only [List.append_assoc, List.singleton_append]
    have hsame := tail.of_free (ih _ hu)
    have hnil := congrArg List.length (List.self_eq_append_left.1 (hsame.symm.trans hu))
    rw [List.length_tail, List.length_append, List.length_append, Quotes.reference_length, List.length_singleton, List.length_nil] at hnil
    omega
  | @last nm name unknown =>
    intro z hz
    have hlen := congrArg List.length hz
    rw [List.length_append, Quotes.reference_length, List.length_nil] at hlen
    omega

/-! ## The passes -/

theorem varSprintOnce_known (hz : (0 : Byte) ∉ t) (hk : Known quotes s.get t) :
    varSprintOnce s buf (t ++ 0 :: j) = (strcpy buf (s.expand t)).map fun buf => (buf, t ++ 0 :: j) := by
  apply sprintLoop_known hz hk rfl
  rw [List.length_append]
  omega

theorem strcpy_fits (h : t.length < a.length) : strcpy a t = some (t ++ 0 :: a.drop (t.length + 1)) := by
  rw [strcpy, puts_fits (by rw [List.length_append, List.length_singleton]; omega), List.take_zero, List.nil_append, Nat.zero_add,
    List.length_append, List.append_assoc]
  rfl

theorem strcpy_outside (h : a.length ≤ t.length) : strcpy a t = none := by
  apply puts_outside _ (by simp)
  rw [List.length_append, List.length_singleton]
  omega

theorem cstr_front (hz : (0 : Byte) ∉ t) : cstr (t ++ 0 :: j) 0 = t := cstr_of_drop rfl hz

theorem Vars.zero_not_mem_expand (hz : (0 : Byte) ∉ t) : (0 : Byte) ∉ s.expand t :=
  Expansion.not_mem_expand hz fun _ _ => Vars.zero_not_mem_get

/-- A pass over a string whose references are all known. -/
theorem sprintPasses_known (hz : (0 : Byte) ∉ t) (hk : Known quotes s.get t) (hlen : buffer.length = bufferSize) :
    sprintPasses s (i + 1) (t ++ 0 :: j) buffer =
      if bufferSize < t.length then .endless
      else if t.length = bufferSize ∨ (t ++ 0 :: j).length ≤ (s.expand t).length then .outside
      else if i ≠ 0 ∧ s.expand t = t then .done (s.expand t ++ 0 :: (t ++ 0 :: j).drop ((s.expand t).length + 1)) false
      else sprintPasses s i (s.expand t ++ 0 :: (t ++ 0 :: j).drop ((s.expand t).length + 1)) (t ++ 0 :: buffer.drop (t.length + 1)) := by
  rw [sprintPasses, cstr_front hz]
  split
  next => rfl
  next hsize =>
    by_cases hfull : t.length = bufferSize
    · rw [strcpy_outside (by omega), if_pos (.inl hfull)]
      rfl
    · rw [strcpy_fits (by omega), Option.bind_some, varSprintOnce_known hz hk]
      by_cases hroom : (t ++ 0 :: j).length ≤ (s.expand t).length
      · rw [strcpy_outside hroom, if_pos (.inr hroom)]
        rfl
      · rw [strcpy_fits (by omega), if_neg (not_or.2 ⟨hfull, hroom⟩), Option.map_some]
        dsimp only
        rw [cstr_front (Vars.zero_not_mem_expand hz), cstr_front hz]

theorem overwritten_length (h : t.length < a.length) : (t ++ 0 :: a.drop (t.length + 1)).length = a.length := by
  rw [List.length_append, List.length_cons, List.length_drop]
  omega

theorem overwritten_drop (h : t.length < k) : (t ++ (0 : Byte) :: a.drop (t.length + 1)).drop k = a.drop k := by
  rw [List.append_cons, List.drop_append, List.drop_eq_nil_of_le (by rw [List.length_append, List.length_singleton]; omega),
    List.nil_append,
    List.drop_drop, List.length_append, List.length_singleton]
  congr 1
  omega

theorem expand_iterate_of_eq (h : s.expand t = t) (k : Nat) : s.expand^[k] t = t := Function.iterate_fixed h k

/-- **The passes over strings that fit**: the last of the expansions is what is left. -/
theorem sprintPasses_fits {room : Nat} (hz : (0 : Byte) ∉ t) (hk : ∀ k < i, Known quotes s.get (s.expand^[k] t))
    (hshort : ∀ k < i, (s.expand^[k] t).length < bufferSize) (hroom : ∀ k ≤ i, (s.expand^[k] t).length < room)
    (hsize : room ≤ (t ++ 0 :: j).length) (hlen : buffer.length = bufferSize) :
    ∃ l loop, sprintPasses s i (t ++ 0 :: j) buffer = .done (s.expand^[i] t ++ 0 :: l) loop ∧
      (s.expand^[i] t ++ 0 :: l).drop room = (t ++ 0 :: j).drop room ∧ (∀ m, m + 2 ≤ i → Free quotes (s.expand^[m] t) → loop = false) := by
  induction i generalizing t j buffer with
  | zero => exact ⟨j, true, rfl, rfl, fun m hm => absurd hm (by omega)⟩
  | succ i ih =>
    have hshort₀ : t.length < bufferSize := hshort 0 (Nat.succ_pos i)
    have hroom₁ : (s.expand t).length < room := hroom 1 (by omega)
    have hno : ¬ (t.length = bufferSize ∨ (t ++ 0 :: j).length ≤ (s.expand t).length) := by omega
    rw [sprintPasses_known hz (hk 0 (Nat.succ_pos i)) hlen, if_neg (by omega), if_neg hno]
    split
    next hsame =>
      have hlast : s.expand^[i + 1] t = s.expand t := (expand_iterate_of_eq hsame.2 (i + 1)).trans hsame.2.symm
      rw [hlast]
      exact ⟨_, false, rfl, overwritten_drop hroom₁, fun _ _ _ => rfl⟩
    next hchange =>
      have hsize₁ := overwritten_length (a := t ++ 0 :: j) (t := s.expand t) (by omega)
      have hlen₁ : (t ++ 0 :: buffer.drop (t.length + 1)).length = bufferSize := (overwritten_length (hlen ▸ hshort₀)).trans hlen
      have hsize₂ : room ≤ (s.expand t ++ 0 :: (t ++ 0 :: j).drop ((s.expand t).length + 1)).length := hsize₁.symm ▸ hsize
      obtain ⟨l, loop, hrun, hdrop, hloop⟩ := ih (Vars.zero_not_mem_expand hz) (fun k hlt => hk (k + 1) (Nat.succ_lt_succ hlt))
        (fun k hlt => hshort (k + 1) (Nat.succ_lt_succ hlt)) (fun k hle => hroom (k + 1) (Nat.succ_le_succ hle)) hsize₂ hlen₁
      refine ⟨l, loop, hrun, hdrop.trans (overwritten_drop hroom₁), ?_⟩
      intro m hm hfree
      cases m with
      | zero => exact absurd ⟨by omega, Expansion.Free.expand hfree⟩ hchange
      | succ m => exact hloop m (by omega) hfree

/-- **Passes that come to an end** were over strings that fit. -/
theorem sprintPasses_done {loop : Bool} (hz : (0 : Byte) ∉ t) (hk : ∀ k < i, Known quotes s.get (s.expand^[k] t))
    (hlen : buffer.length = bufferSize) (h : sprintPasses s i (t ++ 0 :: j) buffer = .done buf' loop) :
    (∀ k < i, (s.expand^[k] t).length < bufferSize) ∧ (∀ k ≤ i, (s.expand^[k] t).length < (t ++ 0 :: j).length) ∧
      ∃ l, buf' = s.expand^[i] t ++ 0 :: l := by
  have hself : t.length < (t ++ 0 :: j).length := by
    rw [List.length_append, List.length_cons]
    omega
  induction i generalizing t j buffer with
  | zero =>
    obtain ⟨rfl, -⟩ := Sprinted.done.inj h
    refine ⟨fun k hlt => absurd hlt (Nat.not_lt_zero k), fun k hle => ?_, j, rfl⟩
    rw [Nat.le_zero.1 hle]
    exact hself
  | succ i ih =>
    rw [sprintPasses_known hz (hk 0 (Nat.succ_pos i)) hlen] at h
    split at h
    next => cases h
    next hle =>
      split at h
      next => cases h
      next hno =>
        rw [not_or] at hno
        have hshort₀ : t.length < bufferSize := by omega
        split at h
        next hsame =>
          obtain ⟨rfl, -⟩ := Sprinted.done.inj h
          refine ⟨fun k _ => ?_, fun k _ => ?_, (t ++ 0 :: j).drop ((s.expand t).length + 1), ?_⟩
          · rw [expand_iterate_of_eq hsame.2]
            exact hshort₀
          · rw [expand_iterate_of_eq hsame.2]
            exact hself
          · rw [(expand_iterate_of_eq hsame.2 (i + 1)).trans hsame.2.symm]
        next hchange =>
          have hsize₁ := overwritten_length (a := t ++ 0 :: j) (t := s.expand t) (by omega)
          obtain ⟨hshort, hroom, l, hl⟩ := ih (Vars.zero_not_mem_expand hz) (fun k hlt => hk (k + 1) (Nat.succ_lt_succ hlt))
            ((overwritten_length (hlen ▸ hshort₀)).trans hlen) h (by rw [hsize₁]; omega)
          rw [hsize₁] at hroom
          refine ⟨fun k hlt => ?_, fun k hle => ?_, l, hl⟩
          · cases k with
            | zero => exact hshort₀
            | succ k => exact hshort k (Nat.lt_of_succ_lt_succ hlt)
          · cases k with
            | zero => exact hself
            | succ k => exact hroom k (Nat.le_of_succ_le_succ hle)

/-- A string at which the passes come to rest, whatever the references are. -/
theorem sprintPasses_settled (h : sprintPasses s i buf buffer = .done buf' false) : Drops s (cstr buf' 0) (cstr buf' 0) := by
  induction i generalizing buf buffer with
  | zero => cases h
  | succ i ih =>
    rw [sprintPasses] at h
    split at h
    next => cases h
    next =>
      split at h
      next => cases h
      next next₁ next₂ hpass =>
        obtain ⟨copied, hcopy, hpass⟩ := Option.bind_eq_some_iff.1 hpass
        split at h
        next hsame =>
          obtain ⟨rfl, -⟩ := Sprinted.done.inj h
          have hz : (0 : Byte) ∉ cstr buf 0 := Packed.not_mem_text _
          by_cases hfits : (cstr buf 0).length < buffer.length
          · rw [strcpy_fits hfits] at hcopy
            obtain rfl := Option.some.inj hcopy
            have hdrops := sprintLoop_drops hz rfl hpass
            rw [(sprintLoop_frame hpass).1, cstr_front hz] at hsame
            rw [← hsame.2] at hdrops
            exact hdrops
          · rw [strcpy_outside (Nat.not_lt.1 hfits)] at hcopy
            cases hcopy
        next => exact ih h

/-! ## The functions -/

/-- Where the expansion is written. -/
inductive Destination
  | dump
  | varSprintBuffer

namespace Destination

def size : Destination → Nat
  | .dump => dumpSize
  | .varSprintBuffer => varSprintBufferSize

/-- What a string and its terminator may take, which is not in the way of `var_sprint_magic`. -/
def room : Destination → Nat
  | .dump => dumpSize
  | .varSprintBuffer => varSprintBufferSize - 4

/-- The function that is called. -/
def run (d : Destination) (s : Vars) (buf buffer line : List Byte) : Sprinted :=
  match d with
  | .dump => varSprint s buf buffer line
  | .varSprintBuffer => varSprintBuf s buf buffer line

end Destination

/-- Whatever is in the arrays, the call stays inside of them and returns, and where the values contain no
references there is no loop, and the line is expanded. The line itself is not written to. -/
def Meets (s : Vars) (d : Destination) (line : List Byte) : Prop :=
  ∀ buf buffer, buf.length = d.size → buffer.length = bufferSize →
    ∃ buf' loop, d.run s buf buffer line = .done buf' loop ∧ (s.Plain → loop = false ∧ cstr buf' 0 = s.expand line)

/-- Each of the strings that the expansion goes through has references to known variables only and fits into
both arrays, and there are no new references where there are none in the values. -/
structure Expandable (s : Vars) (d : Destination) (line : List Byte) : Prop where
  known : ∀ k < 10, Known quotes s.get (s.expand^[k] line)
  short : ∀ k < 10, (s.expand^[k] line).length < bufferSize
  room : ∀ k ≤ 10, (s.expand^[k] line).length < d.room
  plain : s.Plain → Free quotes (s.expand line)

theorem varSprint_fits {d : Destination} {line : List Byte} (hz : (0 : Byte) ∉ line) (h : Expandable s d line) (hsize : d.room ≤ buf.length)
    (hlen : buffer.length = bufferSize) :
    ∃ l loop, varSprint s buf buffer line = .done (s.expand^[10] line ++ 0 :: l) loop ∧
      (s.expand^[10] line ++ 0 :: l).drop d.room = buf.drop d.room ∧
      (s.Plain → loop = false ∧ s.expand^[10] line = s.expand line) := by
  have hline : line.length < d.room := h.room 0 (by decide)
  have hcopied := overwritten_length (a := buf) (t := line) (by omega)
  obtain ⟨l, loop, hrun, hdrop, hloop⟩ := sprintPasses_fits (i := 10) (j := buf.drop (line.length + 1)) hz h.known h.short h.room
    (hcopied.symm ▸ hsize) hlen
  refine ⟨l, loop, ?_, hdrop.trans (overwritten_drop hline), fun hs => ⟨hloop 1 (by decide) (h.plain hs), ?_⟩⟩
  · rw [varSprint, strcpy_fits (by omega)]
    exact hrun
  · exact expand_iterate_of_eq (h.plain hs).expand 9

theorem varSprint_done {line : List Byte} {loop : Bool} (hz : (0 : Byte) ∉ line) (hk : ∀ k < 10, Known quotes s.get (s.expand^[k] line))
    (hlen : buffer.length = bufferSize) (h : varSprint s buf buffer line = .done buf' loop) :
    (∀ k < 10, (s.expand^[k] line).length < bufferSize) ∧ (∀ k ≤ 10, (s.expand^[k] line).length < buf.length) ∧
      ∃ l, buf' = s.expand^[10] line ++ 0 :: l := by
  rw [varSprint] at h
  by_cases hfits : line.length < buf.length
  · rw [strcpy_fits hfits] at h
    have hdone := sprintPasses_done hz hk hlen h
    rwa [overwritten_length hfits] at hdone
  · rw [strcpy_outside (Nat.not_lt.1 hfits)] at h
    cases h

theorem varSprint_settled {line : List Byte} (h : varSprint s buf buffer line = .done buf' false) :
    Drops s (cstr buf' 0) (cstr buf' 0) := by
  rw [varSprint] at h
  split at h
  next => cases h
  next => exact sprintPasses_settled h

/-- `var_sprint_buffer` with the magic number in its place. -/
theorem varSprintBuf_eq_done {line : List Byte} {loop : Bool} (h : varSprintBuf s buf buffer line = .done buf' loop) :
    varSprint s (buf.take (varSprintBufferSize - 4) ++ varSprintMagic) buffer line = .done buf' loop ∧
      buf'.drop (varSprintBufferSize - 4) = varSprintMagic := by
  rw [varSprintBuf] at h
  split at h
  next hrun =>
    split at h
    next hmagic =>
      obtain ⟨rfl, rfl⟩ := Sprinted.done.inj h
      exact ⟨hrun, hmagic⟩
    next => cases h
  next hno => exact absurd h (hno _ _)

theorem known_of_free_expand {line : List Byte} (h : Free quotes (s.expand line)) (k : Nat) : Known quotes s.get (s.expand^[k] line) := by
  cases k with
  | zero => exact Expansion.known_of_free h
  | succ k =>
    rw [Function.iterate_succ_apply, expand_iterate_of_eq h.expand]
    exact h.known _

/-- **The expansion of a line**, for `dump` and for `var_sprint_buffer`: it is as it should be if the strings that it
goes through fit, and, where the values contain no references or no unknown variable comes up, only then. -/
theorem varSprint_meets_iff (s : Vars) (d : Destination) {line : List Byte} (hz : (0 : Byte) ∉ line) :
    (Expandable s d line → Meets s d line) ∧
      (s.Plain ∨ (∀ k < 10, Known quotes s.get (s.expand^[k] line)) → Meets s d line → Expandable s d line) := by
  constructor
  · intro h buf buffer hsize hlen
    have hend : (0 : Byte) ∉ s.expand line := Vars.zero_not_mem_expand hz
    cases d with
    | dump =>
      obtain ⟨l, loop, hrun, -, hplain⟩ := varSprint_fits hz h (Nat.le_of_eq hsize.symm) hlen
      refine ⟨_, loop, hrun, fun hs => ⟨(hplain hs).1, ?_⟩⟩
      rw [(hplain hs).2]
      exact cstr_front hend
    | varSprintBuffer =>
      have htake : (buf.take (varSprintBufferSize - 4)).length = varSprintBufferSize - 4 :=
        List.length_take_of_le (hsize.symm ▸ by decide)
      have hroom : Destination.varSprintBuffer.room ≤ (buf.take (varSprintBufferSize - 4) ++ varSprintMagic).length := by
        rw [List.length_append, htake]
        exact Nat.le_add_right _ _
      obtain ⟨l, loop, hrun, hdrop, hplain⟩ := varSprint_fits hz h hroom hlen
      have hbuf : varSprintBuf s buf buffer line = .done (s.expand^[10] line ++ 0 :: l) loop := by
        rw [varSprintBuf, hrun]
        exact if_pos (hdrop.trans (List.drop_left' htake))
      refine ⟨_, loop, hbuf, fun hs => ⟨(hplain hs).1, ?_⟩⟩
      rw [(hplain hs).2]
      exact cstr_front hend
  · intro hcase h
    obtain ⟨buf', loop, hrun, hplain⟩ :=
      h (List.replicate d.size 0) (List.replicate bufferSize 0) List.length_replicate List.length_replicate
    have hfree : s.Plain → Free quotes (s.expand line) := by
      intro hs
      obtain ⟨rfl, htext⟩ := hplain hs
      have hdrops : Drops s (cstr buf' 0) (cstr buf' 0) := by
        cases d with
        | dump => exact varSprint_settled hrun
        | varSprintBuffer => exact varSprint_settled (varSprintBuf_eq_done hrun).1
      rw [← htext]
      exact hdrops.free hs [] rfl
    have hk : ∀ k < 10, Known quotes s.get (s.expand^[k] line) := by
      obtain hs | hk := hcase
      · exact fun k _ => known_of_free_expand (hfree hs) k
      · exact hk
    cases d with
    | dump =>
      obtain ⟨hshort, hroom, -⟩ := varSprint_done hz hk List.length_replicate hrun
      exact ⟨hk, hshort, fun k hle => (hroom k hle).trans_eq List.length_replicate, hfree⟩
    | varSprintBuffer =>
      obtain ⟨hrun, hmagic⟩ := varSprintBuf_eq_done hrun
      obtain ⟨hshort, -, l, rfl⟩ := varSprint_done hz hk List.length_replicate hrun
      refine ⟨hk, hshort, fun k hle => ?_, hfree⟩
      obtain hlt | rfl := Nat.lt_or_eq_of_le hle
      · exact (hshort k hlt).trans (by decide)
      · -- The terminator would be in the magic number.
        by_contra hlong
        have hin : (0 : Byte) ∈ (s.expand^[10] line ++ 0 :: l).drop (varSprintBufferSize - 4) := by
          have hle : varSprintBufferSize - 4 ≤ (s.expand^[10] line).length := Nat.not_lt.1 hlong
          rw [List.drop_append_of_le_length hle]
          exact List.mem_append_right _ List.mem_cons_self
        rw [hmagic] at hin
        exact absurd hin (by decide)

/-- `x` is `ab`. -/
def oneVar : Vars where
  variableStore := fun p => [0x78, 0, 0x61, 0x62, 0].getD p 0
  actpos := 5
  list := fun i => if i = 0 then ⟨some 0, some 2⟩ else ⟨none, none⟩

theorem varSprint_meets_iff_known : Meets oneVar .dump [0x6b, 0x24, 0x28, 0x78, 0x29] := by
  apply (varSprint_meets_iff oneVar .dump (by decide)).1
  exact ⟨by decide +kernel, by decide +kernel, by decide +kernel, fun _ => by decide +kernel⟩

/-- A line of 700 characters, which does not fit into `dump`, and the line `a$(u)b`, which becomes `ab`. -/
theorem expansion_outside_and_lost :
    ¬ Meets oneVar .dump (List.replicate 700 0x61) ∧ ¬ Meets oneVar .dump [0x61, 0x24, 0x28, 0x75, 0x29, 0x62] ∧ oneVar.Plain := by
  have hplain : oneVar.Plain := by
    intro nm v h
    obtain ⟨i, -, hvalue⟩ := Option.bind_eq_some_iff.1 h
    by_cases hi : i = 0
    · subst hi
      obtain rfl := Option.some.inj hvalue
      decide +kernel
    · simp only [oneVar, if_neg hi] at hvalue
      cases hvalue
  refine ⟨fun h => ?_, fun h => ?_, hplain⟩
  · obtain ⟨buf', loop, hrun, -⟩ := h (List.replicate dumpSize 0) (List.replicate bufferSize 0) List.length_replicate List.length_replicate
    have houtside : varSprint oneVar (List.replicate dumpSize 0) (List.replicate bufferSize 0) (List.replicate 700 0x61) = .outside := by
      rw [varSprint, strcpy_outside (by rw [List.length_replicate, List.length_replicate]; decide)]
    cases hrun.symm.trans houtside
  · obtain ⟨buf', loop, hrun, htext⟩ :=
      h (List.replicate dumpSize 0) (List.replicate bufferSize 0) List.length_replicate List.length_replicate
    have hlost : varSprint oneVar (List.replicate dumpSize 0) (List.replicate bufferSize 0) [0x61, 0x24, 0x28, 0x75, 0x29, 0x62] =
        .done ([0x61, 0x62, 0, 0x75, 0x29, 0x62] ++ List.replicate 694 0) false := by
      decide +kernel
    obtain ⟨rfl, -⟩ := Sprinted.done.inj (hrun.symm.trans hlost)
    have hkept := (htext hplain).2
    revert hkept
    decide +kernel

end TrustedGrub.Builtins
