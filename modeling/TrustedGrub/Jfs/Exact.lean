import TrustedGrub.Lib.Session
import TrustedGrub.Jfs.Extents

/-!
# Which files `jfs_read` reads right

One pass of the loop of `jfs_read` is one step of `Reads`, as long as the extents of the file
are in one leaf and no page with a link to another one is in memory.
-/

namespace TrustedGrub.Jfs
open Disk (GrubError)
open Extents (Extent Sorted Reads Covered content)
open Fsys (Byte Word Long Block Partition Io devread Faulty Read devread_read devread_none devread_lost ofNat_toNat_small ofNat_toInt_small
  signExtend_ofNat signExtend_sshiftRight ofNat_shiftLeft ofNat_sub ofNat_sle ofNat_slt)
open Loop (Flow Leads run)
open Memory (slice)

variable {σ : Type}

/-! ## One extent -/

section One
variable {d : Partition σ} {m : Mount} {root : Block} {stack : Block} {s : State σ} {es : List Extent} {x : Extent} {out : List Byte}
  {p stop n : Nat} {prev : Option Nat}

/-- `endofprev`. -/
def endofprev : Option Nat → Long
  | none => .ofNat 64 (2 ^ 62 - 1)
  | some b => .ofNat 64 b

theorem Mount.Sound.bsize (hm : m.Sound) : 512 ≤ m.bsize ∧ m.bsize ≤ 4096 :=
  ⟨Nat.pow_le_pow_right Nat.two_pos hm.nine, Nat.pow_le_pow_right Nat.two_pos hm.twelve⟩

theorem ofNat_bsize (m : Mount) (n : Nat) : BitVec.ofNat 64 n <<< m.l2bsize = .ofNat 64 (n * m.bsize) := ofNat_shiftLeft n m.l2bsize

theorem Up.bounds {b : Block} {i : Nat} (h : Up d m b i x) (hm : m.Sound) :
    x.offset ≤ x.next ∧ x.next < 2 ^ 41 ∧ x.next * m.bsize < 2 ^ 63 := by
  have hoffset := h.offset_lt
  have hlen := h.len_lt
  have hnext : x.next < 2 ^ 41 := by
    rw [Extent.next]
    omega
  have hmul := Nat.mul_le_mul (Nat.le_of_lt hnext) hm.bsize.2
  exact ⟨Nat.le_add_right _ _, hnext, by omega⟩

theorem Up.next {b : Block} {i : Nat} (h : Up d m b i x) : offsetXAD b i + lengthXAD b i = .ofNat 64 x.next := by
  rw [h.offset, h.len, Extent.next, BitVec.ofNat_add]

/-- The test of an extent. -/
theorem isinxt_eq {b : Block} {i : Nat} (h : Up d m b i x) (hm : m.Sound) (hp : p < 2 ^ 31) (hs : s.filepos = .ofNat 32 p) :
    isinxt ((s.filepos.sshiftRight m.l2bsize).signExtend 64) (offsetXAD b i) (lengthXAD b i) = decide (x.Has m.bsize p) := by
  obtain ⟨hoffset, hnext, -⟩ := h.bounds hm
  have hkey : p / 2 ^ m.l2bsize < 2 ^ 63 := Nat.lt_of_le_of_lt (Nat.div_le_self _ _) (by omega)
  rw [hs, signExtend_sshiftRight hp, isinxt, h.next, h.offset, ofNat_sle (by omega) hkey, ofNat_slt hkey (by omega), ← Bool.decide_and]
  rfl

theorem readExtent_skip (h : Up d m (s.entries root) (16 * s.xad) x) (hm : m.Sound) (hp : p < 2 ^ 31) (hs : s.filepos = .ofNat 32 p)
    (hnot : ¬ x.Has m.bsize p) (hprev : ∀ b, prev = some b → x.offset ≤ b) (hsmall : ∀ b, prev = some b → b < 2 ^ 63) {endpos len : Word} :
    readExtent d m root stack endpos ⟨len, endofprev prev, out⟩ s = (true, ⟨len, endofprev (some x.next), out⟩, s) := by
  have hless : (endofprev prev).slt (offsetXAD (s.entries root) (16 * s.xad)) = false := by
    have hlt := h.offset_lt
    rw [h.offset]
    cases prev with
    | none =>
      rw [endofprev, ofNat_slt (by decide) (by omega)]
      exact decide_eq_false (by omega)
    | some b =>
      rw [endofprev, ofNat_slt (hsmall b rfl) (by omega)]
      exact decide_eq_false (Nat.not_lt.2 (hprev b rfl))
  simp only [readExtent]
  rw [isinxt_eq h hm hp hs, if_neg (by rw [decide_eq_true_eq]; exact hnot), hless, h.next]
  rfl

theorem readExtent_zeros {b : Nat} (h : Up d m (s.entries root) (16 * s.xad) x) (hm : m.Sound) (hp : p < stop) (hstop : stop < 2 ^ 31)
    (hs : s.filepos = .ofNat 32 p) (hnot : ¬ x.Has m.bsize p) (hbefore : b < x.offset)
    (hall : stop ≤ x.offset * m.bsize ∨ stop = p + (x.offset - b) * m.bsize) :
    readExtent d m root stack (.ofNat 32 stop) ⟨.ofNat 32 (stop - p), endofprev (some b), out⟩ s =
      (false, ⟨0, endofprev (some b), out ++ List.replicate (stop - p) 0⟩, { s with filepos := .ofNat 32 stop }) := by
  obtain ⟨hoffset, hnext, hbytes⟩ := h.bounds hm
  have hmul := Nat.mul_le_mul_right m.bsize hoffset
  have hless : (endofprev (some b)).slt (offsetXAD (s.entries root) (16 * s.xad)) = true := by
    rw [h.offset, endofprev, ofNat_slt (by omega) (by omega)]
    exact decide_eq_true hbefore
  have htoread :
      (if ((BitVec.ofNat 32 stop).signExtend 64).sle (offsetXAD (s.entries root) (16 * s.xad) <<< m.l2bsize) then BitVec.ofNat 32 (stop - p)
      else ((offsetXAD (s.entries root) (16 * s.xad) - endofprev (some b)) <<< m.l2bsize).setWidth 32) = .ofNat 32 (stop - p) := by
    rw [signExtend_ofNat hstop, h.offset, ofNat_bsize, ofNat_sle (by omega) (Nat.lt_of_le_of_lt hmul hbytes)]
    split
    · rfl
    next hlong =>
      rw [decide_eq_true_eq] at hlong
      have hexact := hall.resolve_left hlong
      rw [endofprev, ofNat_sub (Nat.le_of_lt hbefore), ofNat_bsize, BitVec.setWidth_ofNat_of_le (by decide)]
      congr 1
      exact (Nat.sub_eq_of_eq_add (by rw [Nat.add_comm]; exact hexact)).symm
  simp only [readExtent]
  rw [isinxt_eq h hm (Nat.lt_trans hp hstop) hs, if_neg (by rw [decide_eq_true_eq]; exact hnot), if_pos hless, htoread,
    ofNat_toNat_small (by omega), BitVec.sub_self, hs, ← BitVec.ofNat_add, Nat.add_sub_cancel' (Nat.le_of_lt hp)]
  rfl

/-- What is read of an extent, which is nothing at the end of a read. -/
theorem readExtent_data (stack : Block) (out : List Byte) (endofprev : Long) (h : Up d m (s.entries root) (16 * s.xad) x) (hm : m.Sound)
    (hp : p ≤ stop)
    (hstop : stop < 2 ^ 31) (hs : s.filepos = .ofNat 32 p) (hhas : x.Has m.bsize p) (hn : p + n = min stop (x.next * m.bsize)) :
    ∃ t s', readExtent d m root stack (.ofNat 32 stop) ⟨.ofNat 32 (stop - p), endofprev, out⟩ s = (true, t, s') ∧
      (t = ⟨.ofNat 32 (stop - (p + n)), .ofNat 64 x.next, out ++ slice d.bytes (x.start + (p - x.offset * m.bsize)) n⟩ ∧
        (∃ dev, s' = { s with filepos := .ofNat 32 (p + n), io := ⟨s.io.errnum, dev⟩ }) ∨ Lost d s') := by
  obtain ⟨-, -, hbytes⟩ := h.bounds hm
  have hpos : 0 < m.bsize := Nat.lt_of_lt_of_le (by decide) hm.bsize.1
  have hlo : x.offset * m.bsize ≤ p := (Nat.le_div_iff_mul_le hpos).1 hhas.1
  have hhi : p < x.next * m.bsize := (Nat.div_lt_iff_lt_mul hpos).1 hhas.2
  have hsmall : p < 2 ^ 31 := Nat.lt_of_le_of_lt hp hstop
  have htoread :
      (if ((BitVec.ofNat 32 stop).signExtend 64).sle
        ((offsetXAD (s.entries root) (16 * s.xad) + lengthXAD (s.entries root) (16 * s.xad)) <<< m.l2bsize)
      then BitVec.ofNat 32 (stop - p)
      else ((offsetXAD (s.entries root) (16 * s.xad) + lengthXAD (s.entries root) (16 * s.xad)) <<< m.l2bsize -
        s.filepos.signExtend 64).setWidth 32) =
      .ofNat 32 n := by
    rw [signExtend_ofNat hstop, h.next, ofNat_bsize, ofNat_sle (by omega) hbytes, hs, signExtend_ofNat hsmall, ofNat_sub (Nat.le_of_lt hhi),
      BitVec.setWidth_ofNat_of_le (by decide)]
    split
    next hall =>
      rw [decide_eq_true_eq] at hall
      congr 1
      omega
    next hall =>
      rw [decide_eq_true_eq] at hall
      congr 1
      omega
  have hoff : (s.filepos.signExtend 64 - offsetXAD (s.entries root) (16 * s.xad) <<< m.l2bsize).setWidth 32 =
    .ofNat 32 (p - x.offset * m.bsize) := by
    rw [hs, signExtend_ofNat hsmall, h.offset, ofNat_bsize, ofNat_sub hlo, BitVec.setWidth_ofNat_of_le (by decide)]
  obtain ⟨sector, hsector, hbehind, hwide⟩ := h.start
  have hinside : x.start + (x.next * m.bsize - x.offset * m.bsize) ≤ 512 * d.partLength.toNat := by
    rw [← Nat.sub_mul, Extent.next, Nat.add_sub_cancel_left]
    exact h.inside
  have hread : Read d (512 * sector + (p - x.offset * m.bsize)) n s.io
    (devread d (.ofNat 32 sector) (.ofNat 32 (p - x.offset * m.bsize)) (.ofNat 32 n)
      stack s.io) := by
    obtain rfl | hn := Nat.eq_zero_or_pos n
    · exact devread_none sector _ hbehind (by omega) (by omega) stack s.io
    · exact devread_read sector _ n hn (by omega) (by omega) stack s.io
  simp only [readExtent]
  rw [isinxt_eq h hm hsmall hs, if_pos (decide_eq_true hhas), htoread, hoff, hwide, h.next]
  refine ⟨_, _, rfl, ?_⟩
  generalize devread d (.ofNat 32 sector) (.ofNat 32 (p - x.offset * m.bsize)) (.ofNat 32 n) stack s.io = read at hread
  cases hread with
  | failed lost => exact .inr lost
  | @delivered b dev bytes =>
    left
    have hfilepos : s.filepos + BitVec.ofNat 32 n = .ofNat 32 (p + n) := by rw [hs, BitVec.ofNat_add]
    have hslice : slice b 0 n = slice d.bytes (x.start + (p - x.offset * m.bsize)) n := by
      rw [Memory.slice_eq_iff]
      intro i hi
      rw [Nat.zero_add, bytes i hi, hsector]
    simp only [ofNat_toNat_small (show n < 2 ^ 31 by omega), hslice, ofNat_sub (show n ≤ stop - p by omega), Nat.sub_sub, hfilepos]
    exact ⟨trivial, dev, rfl⟩

end One

/-! ## The loop -/

section Loop
variable {d : Partition σ} {m : Mount} {root : Block} {stack : Block} {s : State σ} {es : List Extent} {x : Extent}
    {later : List (Nat × List Extent)}

theorem readExtent_lost {endpos : Word} {t : Reading} (h : Lost d s) : Lost d (readExtent d m root stack endpos t s).2.2 := by
  simp only [readExtent]
  split
  · exact devread_lost h
  · split
    · exact h
    · exact h

/-- A pass comes to something, which is lost if a read of it has failed. -/
theorem readPass_flow (d : Partition σ) (m : Mount) (root stack : Block) (endpos : Word) (t : Reading) (s : State σ) :
    ∃ flow, (∀ fuel, readPass d m root stack endpos fuel t s = some flow) ∧
      (Lost d (readExtent d m root stack endpos t s).2.2 → Lost d flow.state) := by
  unfold readPass
  generalize readExtent d m root stack endpos t s = r
  obtain ⟨on, t', s'⟩ := r
  dsimp only
  have hnext : Lost d s' → Lost d (if on = true then nextExtent d m s' else (true, s')).2 := by
    intro h
    split
    · exact nextExtent_lost h
    · exact h
  by_cases hmore : 0 < t'.len.toInt ∧ (if on = true then nextExtent d m s' else (true, s')).1 = true
  · exact ⟨_, fun _ => if_pos hmore, hnext⟩
  · exact ⟨_, fun _ => if_neg hmore, hnext⟩

theorem readPass_lost {endpos : Word} {fuel : Nat} {t : Reading} {flow : Flow Reading (State σ) (List Byte)}
    (hflow : readPass d m root stack endpos fuel t s = some flow) (h : Lost d s) : Lost d flow.state := by
  obtain ⟨flow', hflow', hlost⟩ := readPass_flow d m root stack endpos t s
  obtain rfl := Option.some.inj (hflow.symm.trans (hflow' fuel))
  exact hlost (readExtent_lost h)

/-- `next_extent` in the only leaf, with no other page to go to. -/
theorem nextExtent_one (h : Holds d m root s (x :: es)) (hpage : headerNext s.xtpage = 0) :
    ∃ s', nextExtent d m s = (decide (es ≠ []), s') ∧
    (es ≠ [] → Holds d m root s' es) ∧ s'.filepos = s.filepos ∧ s'.io = s.io ∧ s'.xtpage = s.xtpage := by
  cases es with
  | nil =>
    refine ⟨{ s with xindex := s.xindex + 1 }, ?_, fun h => absurd rfl h, rfl, rfl, rfl⟩
    rw [nextExtent_end h.index, if_neg (not_not.2 hpage)]
    rfl
  | cons y es =>
    obtain ⟨hnext, hholds⟩ := nextExtent_within h
    refine ⟨_, ?_, fun _ => hholds, rfl, rfl, rfl⟩
    rw [hnext, decide_eq_true (List.cons_ne_nil y es)]

/-- What a read of the file leaves. -/
structure Kept (s s' : State σ) : Prop where
  errnum : s'.io.errnum = s.io.errnum
  xtpage : s'.xtpage = s.xtpage

/-- **The loop of `jfs_read`** delivers what `Reads` says. -/
theorem readPass_leads (stack : Block) (out₀ : List Byte) {stop p : Nat} {prev : Option Nat} {out : List Byte} (hm : m.Sound)
    (hstop : stop < 2 ^ 31)
    (hreads : Reads m.bsize d.bytes True stop es prev p out) (hlt : p < stop) (hes : es ≠ []) (hholds : Holds d m root s es)
    (hpage : headerNext s.xtpage = 0) (hs : s.filepos = .ofNat 32 p) (hsmall : ∀ b, prev = some b → b < 2 ^ 63) :
    Leads (readPass d m root stack (.ofNat 32 stop)) (Lost d)
      (fun r s' => r = out₀ ++ out ∧ s'.filepos = .ofNat 32 (p + out.length) ∧ Kept s s') ⟨.ofNat 32 (stop - p), endofprev prev, out₀⟩
        s := by
  induction hreads generalizing s out₀ with
  | done => exact absurd hlt (Nat.lt_irrefl _)
  | short => exact absurd rfl hes
  | @data x es prev p n out lt has count rest ih =>
    have hup := hholds.up hm
    obtain ⟨t, s₁, hresult, ⟨rfl, dev, rfl⟩ | hlost⟩ :=
      readExtent_data stack out₀ (endofprev prev) hup hm (Nat.le_of_lt lt) hstop hs has count
    · obtain ⟨s₂, hnext, hholds', hfilepos, hio, hxtpage⟩ :=
        nextExtent_one (hholds.congr ⟨.ofNat 32 (p + n), ⟨s.io.errnum, dev⟩, rfl⟩) hpage
      have hkept : Kept s s₂ := ⟨by rw [hio], hxtpage⟩
      by_cases hmore : p + n < stop ∧ es ≠ []
      · have hpass : ∀ fuel, readPass d m root stack (.ofNat 32 stop) fuel ⟨.ofNat 32 (stop - p), endofprev prev, out₀⟩ s =
            some (.next ⟨.ofNat 32 (stop - (p + n)), endofprev (some x.next), out₀ ++ slice d.bytes (x.start + (p - x.offset * m.bsize)) n⟩
              s₂) := by
          intro fuel
          simp only [readPass, hresult, if_true, hnext]
          rw [if_pos ⟨by rw [ofNat_toInt_small (by omega)]; omega, decide_eq_true hmore.2⟩]
          rfl
        have hread :=
          ih (out₀ ++ slice d.bytes (x.start + (p - x.offset * m.bsize)) n) hmore.1 hmore.2 (hholds' hmore.2) (hxtpage ▸ hpage) hfilepos
          (fun b hb => by cases hb; have := (hup.bounds hm).2.1; omega)
        apply Leads.next hpass (hread.imp _)
        rintro r s' ⟨rfl, hend, hkept'⟩
        refine ⟨List.append_assoc _ _ _, ?_, hkept'.errnum.trans hkept.errnum, hkept'.xtpage.trans hkept.xtpage⟩
        rw [hend, List.length_append, Memory.slice_length, Nat.add_assoc]
      · have hnil : out = [] := by
          apply rest.eq_nil
          by_cases hes : es = []
          · exact .inr hes
          · exact .inl (Nat.le_antisymm (by omega) (Nat.le_of_not_lt fun h => hmore ⟨h, hes⟩))
        have hpass : ∀ fuel, readPass d m root stack (.ofNat 32 stop) fuel ⟨.ofNat 32 (stop - p), endofprev prev, out₀⟩ s =
            some (.done (out₀ ++ slice d.bytes (x.start + (p - x.offset * m.bsize)) n) s₂) := by
          intro fuel
          simp only [readPass, hresult, if_true, hnext]
          rw [if_neg]
          rintro ⟨hlen, hmost⟩
          refine hmore ⟨?_, of_decide_eq_true hmost⟩
          rw [ofNat_toInt_small (by omega)] at hlen
          omega
        refine .done hpass (.inl ⟨?_, ?_, hkept⟩)
        · rw [hnil, List.append_nil]
        · rw [hnil, List.append_nil, Memory.slice_length, hfilepos]
    · obtain ⟨flow, hflow, hflowlost⟩ := readPass_flow d m root stack (.ofNat 32 stop) ⟨.ofNat 32 (stop - p), endofprev prev, out₀⟩ s
      rw [hresult] at hflowlost
      exact .of_lost hflow (hflowlost hlost)
  | @zeros x es b p lt has before all =>
    have hpass : ∀ fuel, readPass d m root stack (.ofNat 32 stop) fuel ⟨.ofNat 32 (stop - p), endofprev (some b), out₀⟩ s =
        some (.done (out₀ ++ List.replicate (stop - p) 0) { s with filepos := .ofNat 32 stop }) := by
      intro fuel
      simp only [readPass, readExtent_zeros (hholds.up hm) hm lt hstop hs has before all]
      exact if_neg fun h => absurd h.1 (by decide)
    refine .done hpass (.inl ⟨rfl, ?_, rfl, rfl⟩)
    rw [List.length_replicate, Nat.add_sub_cancel' (Nat.le_of_lt lt)]
  | @skip x es prev p out lt has adjacent rest ih =>
    have hup := hholds.up hm
    have hresult : readExtent d m root stack (.ofNat 32 stop) ⟨.ofNat 32 (stop - p), endofprev prev, out₀⟩ s = _ :=
      readExtent_skip hup hm (Nat.lt_trans lt hstop) hs has adjacent hsmall
    obtain ⟨s₂, hnext, hholds', hfilepos, hio, hxtpage⟩ := nextExtent_one hholds hpage
    have hkept : Kept s s₂ := ⟨by rw [hio], hxtpage⟩
    have hlen : 0 < (BitVec.ofNat 32 (stop - p)).toInt := by
      rw [ofNat_toInt_small (by omega)]
      omega
    by_cases hmore : es ≠ []
    · have hpass : ∀ fuel, readPass d m root stack (.ofNat 32 stop) fuel ⟨.ofNat 32 (stop - p), endofprev prev, out₀⟩ s =
          some (.next ⟨.ofNat 32 (stop - p), endofprev (some x.next), out₀⟩ s₂) := by
        intro fuel
        simp only [readPass, hresult, if_true, hnext]
        exact if_pos ⟨hlen, decide_eq_true hmore⟩
      have hread := ih out₀ lt hmore (hholds' hmore) (hxtpage ▸ hpage) (hfilepos.trans hs)
        (fun b hb => by cases hb; have := (hup.bounds hm).2.1; omega)
      apply Leads.next hpass (hread.imp _)
      rintro r s' ⟨hr, hend, hkept'⟩
      exact ⟨hr, hend, hkept'.errnum.trans hkept.errnum, hkept'.xtpage.trans hkept.xtpage⟩
    · have hpass :
          ∀ fuel, readPass d m root stack (.ofNat 32 stop) fuel ⟨.ofNat 32 (stop - p), endofprev prev, out₀⟩ s = some (.done out₀ s₂) := by
        intro fuel
        simp only [readPass, hresult, if_true, hnext]
        exact if_neg fun h => hmore (of_decide_eq_true h.2)
      obtain rfl := rest.eq_nil (.inr (not_not.1 hmore))
      exact .done hpass (.inl ⟨(List.append_nil out₀).symm, hfilepos.trans hs, hkept⟩)

/-- A read of nothing. -/
theorem readPass_nothing (stack : Block) {p : Nat} (hm : m.Sound) (hp : p < 2 ^ 31) (hholds : Holds d m root s (x :: es))
    (hpage : headerNext s.xtpage = 0) (hs : s.filepos = .ofNat 32 p) :
    Leads (readPass d m root stack (.ofNat 32 p)) (Lost d) (fun r s' => r = [] ∧ s'.filepos = .ofNat 32 p ∧ Kept s s')
      ⟨0, endofprev none, []⟩ s := by
  have hup := hholds.up hm
  have hpass :
      ∀ {t : Reading} {s₁ : State σ}, readExtent d m root stack (.ofNat 32 p) ⟨0, endofprev none, []⟩ s = (true, t, s₁) → t.len = 0 →
      ∀ fuel, readPass d m root stack (.ofNat 32 p) fuel ⟨0, endofprev none, []⟩ s = some (.done t.out (nextExtent d m s₁).2) := by
    intro t s₁ hresult hlen fuel
    simp only [readPass, hresult, if_true, hlen]
    exact if_neg fun h => absurd h.1 (by decide)
  by_cases has : x.Has m.bsize p
  · have hcount : p + 0 = min p (x.next * m.bsize) := by
      have hpos : 0 < m.bsize := Nat.lt_of_lt_of_le (by decide) hm.bsize.1
      exact (Nat.min_eq_left (Nat.le_of_lt ((Nat.div_lt_iff_lt_mul hpos).1 has.2))).symm
    have hdata := readExtent_data stack [] (endofprev none) hup hm (Nat.le_refl p) hp hs has hcount
    rw [Nat.sub_self] at hdata
    obtain ⟨t, s₁, hresult, ⟨rfl, dev, rfl⟩ | hlost⟩ := hdata
    · obtain ⟨s₂, hnext, -, hfilepos, hio, hxtpage⟩ := nextExtent_one (hholds.congr ⟨.ofNat 32 (p + 0), ⟨s.io.errnum, dev⟩, rfl⟩) hpage
      refine .done (hpass hresult (congrArg (BitVec.ofNat 32) (Nat.sub_self p))) (.inl ?_)
      rw [hnext]
      exact ⟨rfl, hfilepos, by rw [hio], hxtpage⟩
    · obtain ⟨flow, hflow, hflowlost⟩ := readPass_flow d m root stack (.ofNat 32 p) ⟨0, endofprev none, []⟩ s
      rw [show (0 : Word) = 0#32 from rfl, hresult] at hflowlost
      exact .of_lost hflow (hflowlost hlost)
  · obtain ⟨s₂, hnext, -, hfilepos, hio, hxtpage⟩ := nextExtent_one hholds hpage
    have hresult : readExtent d m root stack (.ofNat 32 p) ⟨0, endofprev none, []⟩ s = (true, ⟨0, endofprev (some x.next), []⟩, s) :=
      readExtent_skip hup hm hp hs has (fun b (hb : none = some b) => nomatch hb) (fun b (hb : none = some b) => nomatch hb)
    refine .done (hpass hresult rfl) (.inl ?_)
    rw [hnext]
    exact ⟨rfl, hfilepos.trans hs, by rw [hio], hxtpage⟩

end Loop

/-! ## `jfs_read` -/

section Read
variable {d : Partition σ} {m : Mount} {root : Block} {stack : Block} {s s' : State σ} {es : List Extent} {p n : Nat} {out : List Byte}

theorem jfsRead_lost {fuel : Nat} {len : Word} {r : List Byte × Word} (hread : jfsRead d m root stack fuel len s = some (r, s'))
    (h : Lost d s) : Lost d s' := by
  obtain ⟨s₁, hfirst, hread⟩ := Option.bind_eq_some_iff.1 hread
  obtain ⟨⟨bytes, s₂⟩, hrun, hresult⟩ := Option.bind_eq_some_iff.1 hread
  cases hresult
  exact Loop.run_keeps readPass_lost hrun (firstExtent_lost hfirst h)

/-- **`jfs_read`** of a file in one leaf delivers what `Reads` says. -/
theorem jfsRead_reads (stack : Block) (hm : m.Sound) (hfile : Stored d m root es []) (hes : es ≠ []) (hpage : headerNext s.xtpage = 0)
    (hmax : p + n < 2 ^ 31) (hreads : Reads m.bsize d.bytes True (p + n) es none p out) (hs : s.filepos = .ofNat 32 p) :
    (∀ fuel r s', jfsRead d m root stack fuel (.ofNat 32 n) s = some (r, s') →
      r = (out, .ofNat 32 out.length) ∧ s'.filepos = .ofNat 32 (p + out.length) ∧ s'.io.errnum = s.io.errnum ∧ headerNext s'.xtpage = 0 ∨
        Lost d s') ∧
      (¬ Faulty d → ∃ fuel result, ∀ k, fuel ≤ k → jfsRead d m root stack k (.ofNat 32 n) s = some result) := by
  have hend : s.filepos + BitVec.ofNat 32 n = .ofNat 32 (p + n) := by rw [hs, BitVec.ofNat_add]
  have hleads : ∀ s', First d m root es [] s s' → Leads (readPass d m root stack (.ofNat 32 (p + n))) (Lost d)
      (fun r s'' => r = out ∧ s''.filepos = .ofNat 32 (p + out.length) ∧ s''.io.errnum = s.io.errnum ∧ headerNext s''.xtpage = 0)
      ⟨.ofNat 32 n, endofprev none, []⟩ s' := by
    intro s' hfirst
    have hpage' := hfirst.page_zero hpage
    have hs' := hfirst.filepos.trans hs
    obtain rfl | hn := Nat.eq_zero_or_pos n
    · obtain rfl := hreads.eq_nil (.inl rfl)
      cases es with
      | nil => exact absurd rfl hes
      | cons x es =>
        refine (readPass_nothing stack hm hmax (hfirst.holds hes) hpage' hs').imp ?_
        rintro r s'' ⟨rfl, hfilepos, hkept⟩
        exact ⟨rfl, hfilepos, hkept.errnum.trans hfirst.errnum, hkept.xtpage ▸ hpage'⟩
    · have hread := readPass_leads stack [] hm hmax hreads (Nat.lt_add_of_pos_right hn) hes (hfirst.holds hes) hpage' hs' nofun
      rw [Nat.add_sub_cancel_left] at hread
      refine hread.imp ?_
      rintro r s'' ⟨hr, hfilepos, hkept⟩
      exact ⟨hr, hfilepos, hkept.errnum.trans hfirst.errnum, hkept.xtpage ▸ hpage'⟩
  obtain ⟨hloop, hends⟩ := firstExtent_leads hm hfile readPass_lost hleads
  simp only [jfsRead, hend]
  constructor
  · intro fuel r s'' hread
    obtain ⟨s', hs', hread⟩ := Option.bind_eq_some_iff.1 hread
    obtain ⟨⟨bytes, s₁⟩, hrun, hresult⟩ := Option.bind_eq_some_iff.1 hread
    cases hresult
    obtain ⟨rfl, hfilepos, hkept⟩ | hgone := hloop fuel bytes s₁ (Option.bind_eq_some_iff.2 ⟨s', hs', hrun⟩)
    · refine .inl ⟨?_, hfilepos, hkept⟩
      rw [hfilepos, hs, ofNat_sub (Nat.le_add_right _ _), Nat.add_sub_cancel_left]
    · exact .inr hgone
  · intro hhealthy
    obtain ⟨fuel, ⟨bytes, s''⟩, hfuel⟩ := hends hhealthy
    refine ⟨fuel, ((bytes, s''.filepos - s.filepos), s''), fun k hk => ?_⟩
    obtain ⟨s', hs', hrun⟩ := Option.bind_eq_some_iff.1 (hfuel k hk)
    exact Option.bind_eq_some_iff.2 ⟨s', hs', Option.bind_eq_some_iff.2 ⟨_, hrun, rfl⟩⟩

end Read

end TrustedGrub.Jfs
