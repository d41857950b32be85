import TrustedGrub.Lib.Memory
import Mathlib.Tactic.Ring

/-!
# Files in extents

A file is a list of extents, each a run of blocks at one place of a disk. What is in no
extent is a hole and reads as zeros, and so does what has never been written.

`Reads` is a loop over the extents that many readers have: it takes what is in the extent
that is up, and fills what it takes for a hole before the extent. It forgets that a read may
begin in a hole or behind it. `Covered` says for which files that does no harm.
-/

namespace Extents
open Memory (slice)

/-- A run of blocks of a file, in blocks, and where its bytes are on the disk. -/
structure Extent where
  offset : Nat
  len : Nat
  start : Nat
  unwritten : Bool
  deriving DecidableEq

/-- The block behind an extent. -/
def Extent.next (x : Extent) : Nat := x.offset + x.len

/-- A position in the file is in the extent. -/
def Extent.Has (x : Extent) (bs p : Nat) : Prop := x.offset ≤ p / bs ∧ p / bs < x.next

instance (x : Extent) (bs p : Nat) : Decidable (x.Has bs p) := inferInstanceAs (Decidable (_ ∧ _))

variable {β : Type} [Zero β]

/-- The byte of the file at a position. -/
def byteAt (bs : Nat) (disk : Nat → β) (es : List Extent) (p : Nat) : β :=
  match es.find? fun x => x.Has bs p with
  | some x => if x.unwritten then 0 else disk (x.start + (p - x.offset * bs))
  | none => 0

/-- The extents stand one behind the other, from block `b` on. -/
def Sorted : Nat → List Extent → Prop
  | _, [] => True
  | b, x :: es => b ≤ x.offset ∧ 0 < x.len ∧ Sorted x.next es

/-- What the loop delivers from position `p` to position `stop`, with the extents that are
left. `prev` is the block behind the last extent that was passed. Where `ends` holds the loop
may come to the end of the extents too early. -/
inductive Reads (bs : Nat) (disk : Nat → β) (ends : Prop) (stop : Nat) : List Extent → Option Nat → Nat → List β → Prop where
  | done {es : List Extent} {prev : Option Nat} : Reads bs disk ends stop es prev stop []
  | data {x : Extent} {es : List Extent} {prev : Option Nat} {p n : Nat} {out : List β} (lt : p < stop) (has : x.Has bs p)
      (count : p + n = min stop (x.next * bs)) (rest : Reads bs disk ends stop es (some x.next) (p + n) out) :
      Reads bs disk ends stop (x :: es) prev p (slice disk (x.start + (p - x.offset * bs)) n ++ out)
  | zeros {x : Extent} {es : List Extent} {b p : Nat} (lt : p < stop) (has : ¬ x.Has bs p) (before : b < x.offset)
      (all : stop ≤ x.offset * bs ∨ stop = p + (x.offset - b) * bs) :
          Reads bs disk ends stop (x :: es) (some b) p (List.replicate (stop - p) 0)
  | skip {x : Extent} {es : List Extent} {prev : Option Nat} {p : Nat} {out : List β} (lt : p < stop) (has : ¬ x.Has bs p)
      (adjacent : ∀ b, prev = some b → x.offset ≤ b) (rest : Reads bs disk ends stop es (some x.next) p out) :
          Reads bs disk ends stop (x :: es) prev p out
  | short {prev : Option Nat} {p : Nat} (lt : p < stop) (hends : ends) : Reads bs disk ends stop [] prev p []

/-- Some extent does not follow at once on the one before it. -/
def Gap : Nat → List Extent → Prop
  | _, [] => False
  | b, x :: es => b < x.offset ∨ Gap x.next es

/-- The extents from block `b` on hold the file as far as `size`, but for a last hole with an
extent behind it. Before the first extent there is no such hole, unless there is a gap behind
it. -/
def Covered (bs size : Nat) : Nat → List Extent → Prop
  | b, [] => size ≤ b * bs
  | b, x :: es =>
    size ≤ b * bs ∨ (x.offset = b ∧ x.unwritten = false ∧ Covered bs size x.next es) ∨
      (b < x.offset ∧ size ≤ x.offset * bs ∧ (0 < b ∨ Gap x.next es))

/-- What a read has to deliver. -/
def content (bs : Nat) (disk : Nat → β) (es : List Extent) (p n : Nat) : List β := slice (byteAt bs disk es) p n

theorem Sorted.append_right {b : Nat} {es es' : List Extent} (h : Sorted b (es ++ es')) : ∃ b', Sorted b' es' := by
  induction es generalizing b with
  | nil => exact ⟨b, h⟩
  | cons x es ih => exact ih h.2.2

section Content
variable {bs size : Nat} {disk : Nat → β} {ends : Prop} {stop p b n : Nat} {x : Extent} {es : List Extent} {prev : Option Nat}
    {out : List β}

theorem byteAt_cons_of_has (h : x.Has bs p) (hw : x.unwritten = false) :
    byteAt bs disk (x :: es) p = disk (x.start + (p - x.offset * bs)) := by
  simp only [byteAt, List.find?_cons, decide_eq_true h, hw, Bool.false_eq_true, if_false]

theorem byteAt_cons_of_not_has (h : ¬ x.Has bs p) : byteAt bs disk (x :: es) p = byteAt bs disk es p := by
  simp only [byteAt, List.find?_cons, decide_eq_false h]

theorem not_has_of_lt (h : p / bs < x.offset) : ¬ x.Has bs p := fun hhas => Nat.not_lt.2 hhas.1 h

theorem not_has_of_far {stop : Nat} (hoffset : b ≤ x.offset) (hlt : p < stop) (hfar : stop ≤ b * bs) : ¬ x.Has bs p := by
  apply not_has_of_lt
  apply Nat.div_lt_of_lt_mul
  rw [Nat.mul_comm]
  exact Nat.lt_of_lt_of_le hlt (Nat.le_trans hfar (Nat.mul_le_mul_right bs hoffset))

theorem not_has_of_ge (h : x.next ≤ p / bs) : ¬ x.Has bs p := fun hhas => Nat.not_lt.2 h hhas.2

/-- Before the extents there is a hole. -/
theorem byteAt_of_lt (hsorted : Sorted b es) (h : p / bs < b) : byteAt bs disk es p = 0 := by
  induction es generalizing b with
  | nil => rfl
  | cons x es ih =>
    obtain ⟨hoffset, -, hrest⟩ := hsorted
    rw [byteAt_cons_of_not_has (not_has_of_lt (Nat.lt_of_lt_of_le h hoffset))]
    apply ih hrest
    exact Nat.lt_of_lt_of_le h (Nat.le_trans hoffset (Nat.le_add_right _ _))

theorem content_eq_zeros (h : ∀ q, p ≤ q → q < p + n → byteAt bs disk es q = 0) : content bs disk es p n = List.replicate n 0 := by
  rw [content, List.eq_replicate_iff]
  refine ⟨Memory.slice_length _ _ _, fun c hc => ?_⟩
  obtain ⟨i, hi, rfl⟩ := List.mem_map.1 hc
  exact h _ (Nat.le_add_right _ _) (Nat.add_lt_add_left (List.mem_range.1 hi) p)

theorem content_cons (h : ∀ q, p ≤ q → q < p + n → ¬ x.Has bs q) : content bs disk (x :: es) p n = content bs disk es p n :=
  Memory.slice_congr fun q hlo hhi => byteAt_cons_of_not_has (h q hlo hhi)

/-- Where nothing is left to deliver, or no extent to take it from, nothing is delivered. -/
theorem Reads.eq_nil (h : Reads bs disk ends stop es prev p out) (hend : p = stop ∨ es = []) : out = [] := by
  cases h with
  | done => rfl
  | short => rfl
  | data lt => exact hend.elim (fun h => absurd h (Nat.ne_of_lt lt)) fun h => absurd h (List.cons_ne_nil _ _)
  | zeros lt => exact hend.elim (fun h => absurd h (Nat.ne_of_lt lt)) fun h => absurd h (List.cons_ne_nil _ _)
  | skip lt => exact hend.elim (fun h => absurd h (Nat.ne_of_lt lt)) fun h => absurd h (List.cons_ne_nil _ _)

end Content

/-! ## Files that are read right -/

section Right
variable {bs size : Nat} {disk : Nat → β} {ends : Prop} {stop p b n : Nat} {x : Extent} {es : List Extent} {prev : Option Nat}
    {out : List β}

/-- The block behind the last extent, if one has been passed. -/
def passed (b : Nat) : Option Nat := if b = 0 then none else some b

theorem passed_of_pos (h : 0 < b) : passed b = some b := if_neg (Nat.pos_iff_ne_zero.1 h)

/-- Where there is a gap behind extents that the file does not reach, it is filled. -/
theorem reads_gap (hgap : Gap b es) (hsorted : Sorted b es) (hlt : p < stop) (hfar : stop ≤ b * bs) :
    Reads bs disk ends stop es (some b) p (List.replicate (stop - p) 0) := by
  induction es generalizing b with
  | nil => exact hgap.elim
  | cons x es ih =>
    obtain ⟨hoffset, -, hrest⟩ := hsorted
    have hnot := not_has_of_far hoffset hlt hfar
    obtain heq | hbefore := Nat.eq_or_lt_of_le hoffset
    · apply Reads.skip hlt hnot fun b' hb' => by cases hb'; exact Nat.le_of_eq heq.symm
      have hgap' : Gap x.next es := hgap.elim (fun h => absurd h (by omega)) id
      apply ih hgap' hrest
      exact Nat.le_trans hfar (Nat.mul_le_mul_right bs (Nat.le_trans hoffset (Nat.le_add_right _ _)))
    · exact .zeros hlt hnot hbefore (.inl (Nat.le_trans hfar (Nat.mul_le_mul_right bs hoffset)))

/-- **A file that is covered** is read right, from everywhere. -/
theorem reads_covered (disk : Nat → β) (ends : Prop) (hbs : 0 < bs) (hcovered : Covered bs size b es) (hsorted : Sorted b es)
    (hlo : b * bs ≤ p) (hle : p ≤ stop)
    (hstop : stop ≤ size) : Reads bs disk ends stop es (passed b) p (content bs disk es p (stop - p)) := by
  obtain rfl | hlt := Nat.eq_or_lt_of_le hle
  · rw [Nat.sub_self]
    exact .done
  induction es generalizing b p with
  | nil =>
    have hsize : size ≤ b * bs := hcovered
    omega
  | cons x es ih =>
    obtain ⟨hoffset, hlen, hrest⟩ := hsorted
    obtain hsize | ⟨rfl, hwritten, hcovered⟩ | ⟨hbefore, hsize, hpassed⟩ := hcovered
    · omega
    · have hnext : passed x.next = some x.next := passed_of_pos (Nat.lt_of_lt_of_le hlen (Nat.le_add_left _ _))
      have hadjacent : ∀ b', passed x.offset = some b' → x.offset ≤ b' := by
        intro b' hb'
        rw [passed] at hb'
        split at hb'
        · cases hb'
        · cases hb'
          exact Nat.le_refl _
      have hlo' : x.offset ≤ p / bs := (Nat.le_div_iff_mul_le hbs).2 hlo
      by_cases hin : p / bs < x.next
      · -- The extent is read as far as it goes, and the rest begins at its end.
        have hend : p < x.next * bs := (Nat.div_lt_iff_lt_mul hbs).1 hin
        obtain ⟨n, hn⟩ := Nat.exists_eq_add_of_le (show p ≤ min stop (x.next * bs) by omega)
        have hdata : ∀ q, p ≤ q → q < p + n → byteAt bs disk (x :: es) q = disk (x.start + (q - x.offset * bs)) := by
          intro q hq hqn
          have hqlo : x.offset ≤ q / bs := Nat.le_trans hlo' (Nat.div_le_div_right hq)
          have hqhi : q / bs < x.next := (Nat.div_lt_iff_lt_mul hbs).2 (by omega)
          exact byteAt_cons_of_has ⟨hqlo, hqhi⟩ hwritten
        have hsplit : content bs disk (x :: es) p (stop - p) =
            slice disk (x.start + (p - x.offset * bs)) n ++ content bs disk es (p + n) (stop - (p + n)) := by
          have hfirst : slice (byteAt bs disk (x :: es)) p n = slice disk (x.start + (p - x.offset * bs)) n := by
            rw [Memory.slice_eq_iff]
            intro i hi
            rw [hdata (p + i) (Nat.le_add_right _ _) (Nat.add_lt_add_left hi p)]
            congr 1
            omega
          rw [content, show stop - p = n + (stop - (p + n)) by omega, Memory.slice_add, hfirst]
          congr 1
          apply content_cons
          intro q hq hqn
          apply not_has_of_ge
          rw [Nat.le_div_iff_mul_le hbs]
          omega
        rw [hsplit]
        apply Reads.data hlt ⟨hlo', hin⟩ hn.symm
        obtain heq | hless := Nat.eq_or_lt_of_le (show p + n ≤ stop by omega)
        · rw [heq, Nat.sub_self]
          exact .done
        · rw [← hnext]
          exact ih hcovered hrest (by omega) (Nat.le_of_lt hless) hless
      · have hge : x.next ≤ p / bs := Nat.le_of_not_lt hin
        rw [content_cons fun q hq _ => not_has_of_ge (Nat.le_trans hge (Nat.div_le_div_right hq))]
        apply Reads.skip hlt (not_has_of_ge hge) hadjacent
        rw [← hnext]
        exact ih hcovered hrest ((Nat.le_div_iff_mul_le hbs).1 hge) hle hlt
    · have hnot : ∀ q < stop, q / bs < x.offset := fun q hq => (Nat.div_lt_iff_lt_mul hbs).2 (by omega)
      have hzeros : content bs disk (x :: es) p (stop - p) = List.replicate (stop - p) 0 := by
        apply content_eq_zeros
        intro q hq hqn
        exact byteAt_of_lt (b := x.offset) ⟨Nat.le_refl _, hlen, hrest⟩ (hnot q (by omega))
      rw [hzeros]
      obtain hpos | hgap := hpassed
      · rw [passed_of_pos hpos]
        exact .zeros hlt (not_has_of_lt (hnot p hlt)) hbefore (.inl (by omega))
      · obtain rfl | hpos := Nat.eq_zero_or_pos b
        · apply Reads.skip hlt (not_has_of_lt (hnot p hlt)) fun b' hb' => absurd hb' (by simp [passed])
          apply reads_gap hgap hrest hlt
          exact Nat.le_trans (Nat.le_trans hstop hsize) (Nat.mul_le_mul_right bs (Nat.le_add_right _ _))
        · rw [passed_of_pos hpos]
          exact .zeros hlt (not_has_of_lt (hnot p hlt)) hbefore (.inl (by omega))

end Right

/-! ## Files that are not -/

section Wrong
variable {bs size : Nat} {one : β} {ends : Prop} {stop p b n : Nat} {x : Extent} {es : List Extent} {prev : Option Nat} {out : List β}

/-- Before extents that lie behind its end a read comes to zeros or to nothing. -/
theorem reads_far (hends : ends) (disk : Nat → β) (hsorted : Sorted b es) (hlt : p < stop) (hfar : stop ≤ b * bs) :
    ∃ out, Reads bs disk ends stop es (some b) p out ∧ (out = List.replicate (stop - p) 0 ∨ out = []) := by
  induction es generalizing b with
  | nil => exact ⟨[], .short hlt hends, .inr rfl⟩
  | cons x es ih =>
    obtain ⟨hoffset, -, hrest⟩ := hsorted
    have hnot := not_has_of_far hoffset hlt hfar
    obtain heq | hbefore := Nat.eq_or_lt_of_le hoffset
    · obtain ⟨out, hreads, hout⟩ := ih hrest (Nat.le_trans hfar (Nat.mul_le_mul_right bs (Nat.le_trans hoffset (Nat.le_add_right _ _))))
      refine ⟨out, .skip hlt hnot (fun b' hb' => ?_) hreads, hout⟩
      cases hb'
      exact Nat.le_of_eq heq.symm
    · exact ⟨_, .zeros hlt hnot hbefore (.inl (Nat.le_trans hfar (Nat.mul_le_mul_right bs hoffset))), .inl rfl⟩

theorem content_one (bs : Nat) (disk : Nat → β) (es : List Extent) (p : Nat) : content bs disk es p 1 = [byteAt bs disk es p] := by
  rw [content, Memory.slice_succ, Memory.slice_zero]

/-- What has not been written is not read as zeros. -/
theorem reads_unwritten (ends : Prop) (hbs : 0 < bs) (hone : one ≠ 0) (hx : x.unwritten = true) (hlen : 0 < x.len) (es : List Extent)
    (prev : Option Nat) :
    ∃ out, Reads bs (fun _ => one) ends (x.offset * bs + 1) (x :: es) prev (x.offset * bs) out ∧
      out ≠ content bs (fun _ => one) (x :: es) (x.offset * bs) 1 := by
  have hdiv : x.offset * bs / bs = x.offset := Nat.mul_div_cancel _ hbs
  have hhas : x.Has bs (x.offset * bs) := by
    rw [Extent.Has, hdiv]
    exact ⟨Nat.le_refl _, Nat.lt_add_of_pos_right hlen⟩
  have hmin : x.offset * bs + 1 = min (x.offset * bs + 1) (x.next * bs) := by
    rw [Nat.min_eq_left]
    have hmul : (x.offset + 1) * bs ≤ x.next * bs := Nat.mul_le_mul_right bs (Nat.add_le_add_left hlen _)
    rw [Nat.succ_mul] at hmul
    omega
  refine ⟨_, .data (Nat.lt_succ_self _) hhas hmin .done, ?_⟩
  have hbyte : byteAt bs (fun _ => one) (x :: es) (x.offset * bs) = 0 := by
    simp only [byteAt, List.find?_cons, decide_eq_true hhas, hx, if_true]
  rw [content_one, hbyte, List.append_nil, Memory.slice_succ, Memory.slice_zero]
  exact fun h => hone (List.cons.inj h).1

/-- **A file that is not covered** is read wrong from somewhere, unless it has zeros on the
disk. -/
theorem reads_uncovered (hbs : 1 < bs) (hone : one ≠ 0) (hends : ends) (hun : ¬ Covered bs size b es) (hsorted : Sorted b es) :
    ∃ p stop out, b * bs ≤ p ∧ p < stop ∧ stop ≤ size ∧ Reads bs (fun _ => one) ends stop es (passed b) p out ∧
      out ≠ content bs (fun _ => one) es p (stop - p) := by
  have hpos : 0 < bs := Nat.lt_trans Nat.one_pos hbs
  induction es generalizing b with
  | nil =>
    have hlt : b * bs < size := Nat.lt_of_not_le hun
    refine ⟨b * bs, b * bs + 1, [], Nat.le_refl _, Nat.lt_succ_self _, hlt, .short (Nat.lt_succ_self _) hends, ?_⟩
    rw [Nat.add_sub_cancel_left, content_one]
    exact (List.cons_ne_nil _ _).symm
  | cons x es ih =>
    obtain ⟨hoffset, hlen, hrest⟩ := hsorted
    simp only [Covered, not_or, not_and, Nat.not_le] at hun
    obtain ⟨hlt, hfirst, hhole⟩ := hun
    have hxpos : 0 < x.next := Nat.lt_of_lt_of_le hlen (Nat.le_add_left _ _)
    by_cases hsize : size ≤ x.offset * bs
    · -- Only at the beginning of a file is a hole before extents behind its end not filled.
      have hbefore : b < x.offset := Nat.lt_of_mul_lt_mul_right (Nat.lt_of_lt_of_le hlt hsize)
      obtain ⟨hzero, hgap⟩ := hhole hbefore hsize
      obtain rfl := Nat.eq_zero_of_not_pos hzero
      have hshort : ∀ (b : Nat) (es : List Extent), ¬ Gap b es → Sorted b es → ∀ p stop, p < stop → stop ≤ b * bs →
          Reads bs (fun _ => one) ends stop es (some b) p [] := by
        intro b es
        induction es generalizing b with
        | nil => exact fun _ _ p stop hp _ => .short hp hends
        | cons y es ihy =>
          rintro hgap ⟨hoff, hylen, hyrest⟩ p stop hp hfar
          rw [Gap, not_or] at hgap
          have heq : y.offset = b := Nat.le_antisymm (Nat.le_of_not_lt hgap.1) hoff
          have hnot : ¬ y.Has bs p := not_has_of_lt ((Nat.div_lt_iff_lt_mul hpos).2 (by rw [heq]; omega))
          apply Reads.skip hp hnot fun b' hb' => by cases hb'; exact Nat.le_of_eq heq
          exact ihy _ hgap.2 hyrest p stop hp (Nat.le_trans hfar (Nat.mul_le_mul_right bs (heq ▸ Nat.le_add_right _ _)))
      have hone' : 1 ≤ x.next * bs := Nat.mul_pos hxpos hpos
      refine ⟨0, 1, [], Nat.le_of_eq (Nat.zero_mul bs), Nat.one_pos, by omega, ?_, ?_⟩
      · apply Reads.skip Nat.one_pos
        · exact not_has_of_lt (by rw [Nat.zero_div]; exact hbefore)
        · exact fun b' hb' => absurd hb' (by simp [passed])
        · exact hshort _ _ hgap hrest 0 1 Nat.one_pos hone'
      · rw [content_one]
        exact (List.cons_ne_nil _ _).symm
    · have hsize : x.offset * bs < size := Nat.lt_of_not_le hsize
      by_cases hx : x.unwritten = true
      · obtain ⟨out, hreads, hout⟩ := reads_unwritten ends hpos hone hx hlen es (passed b)
        refine ⟨x.offset * bs, x.offset * bs + 1, out, Nat.mul_le_mul_right bs hoffset, Nat.lt_succ_self _, hsize, hreads, ?_⟩
        rw [Nat.add_sub_cancel_left]
        exact hout
      · have hwritten : x.unwritten = false := Bool.eq_false_of_not_eq_true hx
        obtain heq | hbefore := Nat.eq_or_lt_of_le hoffset
        · obtain ⟨p, stop, out, hlo, hp, hstop, hreads, hout⟩ := ih (hfirst heq.symm hwritten) hrest
          have hge : x.next ≤ p / bs := (Nat.le_div_iff_mul_le hpos).2 hlo
          refine ⟨p, stop, out, ?_, hp, hstop, ?_, ?_⟩
          · exact Nat.le_trans (Nat.mul_le_mul_right bs (Nat.le_trans hoffset (Nat.le_add_right _ _))) hlo
          · apply Reads.skip hp (not_has_of_ge hge)
            · intro b' hb'
              rw [passed] at hb'
              split at hb'
              · cases hb'
              · cases hb'
                exact Nat.le_of_eq heq.symm
            · rw [passed_of_pos hxpos] at hreads
              exact hreads
          · rw [content_cons fun q hq _ => not_has_of_ge (Nat.le_trans hge (Nat.div_le_div_right hq))]
            exact hout
        · have hhas : x.Has bs (x.offset * bs) := by
            rw [Extent.Has, Nat.mul_div_cancel _ hpos]
            exact ⟨Nat.le_refl _, Nat.lt_add_of_pos_right hlen⟩
          have hstop : x.offset * bs + 1 ≤ x.next * bs := by
            have hmul : (x.offset + 1) * bs ≤ x.next * bs := Nat.mul_le_mul_right bs (Nat.add_le_add_left hlen _)
            rw [Nat.succ_mul] at hmul
            omega
          have hlast : ∀ p ≤ x.offset * bs, List.replicate (x.offset * bs + 1 - p) 0 ≠
            content bs (fun _ => one) (x :: es) p (x.offset * bs + 1 - p) := by
            intro p hp heq
            have hbyte := congrArg (·[x.offset * bs - p]?) heq
            simp only [content, Memory.slice_getElem?] at hbyte
            rw [List.getElem?_replicate, if_pos (by omega), if_pos (by omega), Nat.add_sub_cancel' hp,
              byteAt_cons_of_has hhas hwritten] at hbyte
            exact hone (Option.some.inj hbyte).symm
          obtain rfl | hb := Nat.eq_zero_or_pos b
          · obtain ⟨out, hreads, hout⟩ := reads_far (p := 0) hends (fun _ => one) hrest (Nat.succ_pos (x.offset * bs)) hstop
            refine ⟨0, x.offset * bs + 1, out, Nat.le_of_eq (Nat.zero_mul bs), Nat.succ_pos _, hsize, ?_, ?_⟩
            · exact .skip (Nat.succ_pos _) (not_has_of_lt (by rwa [Nat.zero_div])) (fun b' hb' => absurd hb' (by simp [passed])) hreads
            · obtain rfl | rfl := hout
              · exact hlast 0 (Nat.zero_le _)
              · intro h
                have hlength := congrArg List.length h
                rw [content, Memory.slice_length] at hlength
                exact absurd hlength (Nat.succ_ne_zero _).symm
          · have hroom : (b + 1) * bs ≤ x.offset * bs := Nat.mul_le_mul_right bs hbefore
            rw [Nat.succ_mul] at hroom
            refine ⟨b * bs + 1, x.offset * bs + 1, _, Nat.le_succ _, by omega, hsize, ?_, hlast _ (by omega)⟩
            rw [passed_of_pos hb]
            apply Reads.zeros (by omega) (not_has_of_lt ((Nat.div_lt_iff_lt_mul hpos).2 (by omega))) hbefore
            right
            rw [Nat.sub_mul]
            omega

end Wrong

end Extents
