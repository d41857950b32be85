import TrustedGrub.Lib.Session
import TrustedGrub.Xfs.Extents

/-!
# Which files `xfs_read` reads right

One pass of the loop of `xfs_read` is one step of `Reads`, so a file whose extents cover it
is read right. Other files are not.
-/

namespace TrustedGrub.Xfs
open Disk (GrubError)
open Extents (Extent Sorted Reads Covered content)
open Fsys (Byte Word Long Block Partition Io devread Faulty Read devread_read devread_lost ofNat_toNat_small ofNat_toInt_small
  signExtend_ofNat
  signExtend_sshiftRight ofNat_shiftLeft ofNat_sub ofNat_le ofNat_lt)
open Loop (Flow Leads run)
open Memory (slice)

variable {σ : Type}

/-! ## One extent -/

section One
variable {d : Partition σ} {m : Mount} {inode : Inode} {stack : Block} {s : State σ} {es : List Extent} {x : Extent} {xad : Xad}
    {out : List Byte}
  {p stop n : Nat} {prev : Option Nat}

/-- `endofprev`. -/
def endofprev : Option Nat → Long
  | none => -1
  | some b => .ofNat 64 b

theorem ofNat_bsize (m : Mount) (n : Nat) : BitVec.ofNat 64 n <<< m.blklog = .ofNat 64 (n * m.bsize) := ofNat_shiftLeft n m.blklog

theorem Xad.Is.bounds (h : xad.Is d m x) (hm : m.Sound) : x.offset ≤ x.next ∧ x.next * m.bsize < 2 ^ 64 ∧ x.next < 2 ^ 64 := by
  have hend := h.end_le
  have hle : x.next ≤ x.next * m.bsize := Nat.le_mul_of_pos_right _ (Nat.lt_of_lt_of_le (by decide) hm.bsize.1)
  exact ⟨Nat.le_add_right _ _, by omega, by omega⟩

theorem Xad.Is.next (h : xad.Is d m x) : xad.offset + xad.len = .ofNat 64 x.next := by
  rw [h.offset, h.len, Extent.next, BitVec.ofNat_add]

/-- The test of an extent. -/
theorem isinxt_eq (h : xad.Is d m x) (hm : m.Sound) (hp : p < 2 ^ 31) (hs : s.filepos = .ofNat 32 p) :
    isinxt ((s.filepos.sshiftRight m.blklog).signExtend 64) xad.offset xad.len = decide (x.Has m.bsize p) := by
  obtain ⟨hoffset, -, hnext⟩ := h.bounds hm
  have hkey : p / 2 ^ m.blklog < 2 ^ 64 := Nat.lt_of_le_of_lt (Nat.div_le_self _ _) (by omega)
  rw [hs, signExtend_sshiftRight hp, isinxt, h.next, h.offset]
  apply decide_eq_decide.2
  exact and_congr (ofNat_le (by omega) hkey) (ofNat_lt hkey hnext)

theorem readExtent_skip (h : xad.Is d m x) (hm : m.Sound) (hp : p < 2 ^ 31) (hs : s.filepos = .ofNat 32 p) (hnot : ¬ x.Has m.bsize p)
    (hprev : ∀ b, prev = some b → x.offset ≤ b) (hsmall : ∀ b, prev = some b → b < 2 ^ 64) {endpos len : Word} :
    readExtent d m stack endpos xad ⟨len, endofprev prev, out⟩ s = (⟨len, endofprev (some x.next), out⟩, s) := by
  obtain ⟨hoffset, -, hnext⟩ := h.bounds hm
  have hless : ¬ endofprev prev < xad.offset := by
    rw [h.offset]
    cases prev with
    | none =>
      rw [BitVec.lt_def]
      exact Nat.not_lt.2 (Nat.le_sub_one_of_lt (BitVec.isLt _))
    | some b =>
      show ¬ BitVec.ofNat 64 b < _
      rw [ofNat_lt (hsmall b rfl) (by omega)]
      exact Nat.not_lt.2 (hprev b rfl)
  simp only [readExtent]
  rw [isinxt_eq h hm hp hs, if_neg (by rw [decide_eq_true_eq]; exact hnot), if_neg hless, h.next]
  rfl

theorem readExtent_zeros {b : Nat} (h : xad.Is d m x) (hm : m.Sound) (hp : p < stop) (hstop : stop < 2 ^ 31) (hs : s.filepos = .ofNat 32 p)
    (hnot : ¬ x.Has m.bsize p) (hbefore : b < x.offset) (hall : stop ≤ x.offset * m.bsize ∨ stop = p + (x.offset - b) * m.bsize) :
    readExtent d m stack (.ofNat 32 stop) xad ⟨.ofNat 32 (stop - p), endofprev (some b), out⟩ s =
      (⟨0, endofprev (some b), out ++ List.replicate (stop - p) 0⟩, { s with filepos := .ofNat 32 stop }) := by
  obtain ⟨hoffset, hbytes, hnext⟩ := h.bounds hm
  have hmul := Nat.mul_le_mul_right m.bsize hoffset
  have hless : endofprev (some b) < xad.offset := by
    rw [h.offset]
    exact (ofNat_lt (by omega) (by omega)).2 hbefore
  have htoread : (if (BitVec.ofNat 32 stop).signExtend 64 ≤ xad.offset <<< m.blklog then BitVec.ofNat 32 (stop - p)
      else ((xad.offset - endofprev (some b)) <<< m.blklog).setWidth 32) = .ofNat 32 (stop - p) := by
    simp only [signExtend_ofNat hstop, h.offset, ofNat_bsize, ofNat_le (show stop < 2 ^ 64 by omega) (Nat.lt_of_le_of_lt hmul hbytes)]
    split
    · rfl
    next hlong =>
      have hexact := hall.resolve_left hlong
      rw [endofprev, ofNat_sub (Nat.le_of_lt hbefore), ofNat_bsize, BitVec.setWidth_ofNat_of_le (by decide)]
      congr 1
      exact (Nat.sub_eq_of_eq_add (by rw [Nat.add_comm]; exact hexact)).symm
  simp only [readExtent]
  rw [isinxt_eq h hm (Nat.lt_trans hp hstop) hs, if_neg (by rw [decide_eq_true_eq]; exact hnot), if_pos hless, htoread,
    ofNat_toNat_small (by omega), BitVec.sub_self, hs, ← BitVec.ofNat_add, Nat.add_sub_cancel' (Nat.le_of_lt hp)]
  rfl

/-- What is read of an extent. -/
theorem readExtent_data (stack : Block) (out : List Byte) (endofprev : Long) (h : xad.Is d m x) (hm : m.Sound) (hp : p < stop)
    (hstop : stop < 2 ^ 31)
    (hs : s.filepos = .ofNat 32 p) (hhas : x.Has m.bsize p) (hn : p + n = min stop (x.next * m.bsize)) :
    ∃ s', readExtent d m stack (.ofNat 32 stop) xad ⟨.ofNat 32 (stop - p), endofprev, out⟩ s = s' ∧
      (s'.1 = ⟨.ofNat 32 (stop - (p + n)), .ofNat 64 x.next, out ++ slice d.bytes (x.start + (p - x.offset * m.bsize)) n⟩ ∧
        (∃ dev, s'.2 = { s with filepos := .ofNat 32 (p + n), io := ⟨s.io.errnum, dev⟩ }) ∨ Lost d s'.2) := by
  obtain ⟨-, hbytes, -⟩ := h.bounds hm
  have hpos : 0 < m.bsize := Nat.lt_of_lt_of_le (by decide) hm.bsize.1
  have hlo : x.offset * m.bsize ≤ p := (Nat.le_div_iff_mul_le hpos).1 hhas.1
  have hhi : p < x.next * m.bsize := (Nat.div_lt_iff_lt_mul hpos).1 hhas.2
  have htoread : (if (BitVec.ofNat 32 stop).signExtend 64 ≤ (xad.offset + xad.len) <<< m.blklog then BitVec.ofNat 32 (stop - p)
      else ((xad.offset + xad.len) <<< m.blklog - s.filepos.signExtend 64).setWidth 32) = .ofNat 32 n := by
    simp only [signExtend_ofNat hstop, h.next, ofNat_bsize, ofNat_le (show stop < 2 ^ 64 by omega) hbytes, hs,
      signExtend_ofNat (Nat.lt_trans hp hstop), ofNat_sub (Nat.le_of_lt hhi), BitVec.setWidth_ofNat_of_le (show 32 ≤ 64 by decide)]
    split
    · congr 1
      omega
    · congr 1
      omega
  have hoff : (s.filepos.signExtend 64 - xad.offset <<< m.blklog).setWidth 32 = .ofNat 32 (p - x.offset * m.bsize) := by
    rw [hs, signExtend_ofNat (Nat.lt_trans hp hstop), h.offset, ofNat_bsize, ofNat_sub hlo, BitVec.setWidth_ofNat_of_le (by decide)]
  obtain ⟨sector, hsector, hdaddr⟩ := h.start
  have hwide : (fsb2daddr m xad.start).setWidth 32 = .ofNat 32 sector := by
    rw [hdaddr]
    exact BitVec.setWidth_ofNat_of_le (by decide) sector
  have hinside : x.start + (x.next * m.bsize - x.offset * m.bsize) ≤ 512 * d.partLength.toNat := by
    rw [← Nat.sub_mul, Extent.next, Nat.add_sub_cancel_left]
    exact h.inside
  have hread := devread_read (d := d) sector (p - x.offset * m.bsize) n (by omega) (by omega) (by omega) stack s.io
  simp only [readExtent]
  rw [isinxt_eq h hm (Nat.lt_trans hp hstop) hs, if_pos (decide_eq_true hhas), htoread, hoff, hwide, h.next]
  refine ⟨_, rfl, ?_⟩
  generalize devread d (.ofNat 32 sector) (.ofNat 32 (p - x.offset * m.bsize)) (.ofNat 32 n) stack s.io = read at hread
  cases hread with
  | failed lost => exact .inr lost
  | @delivered b dev bytes =>
    left
    have hfilepos : s.filepos + BitVec.ofNat 32 n = .ofNat 32 (p + n) := by rw [hs, BitVec.ofNat_add]
    have hslice : slice b 0 n = slice d.bytes (x.start + (p - x.offset * m.bsize)) n := by
      rw [Memory.slice_eq_iff]
      intro i hi
      rw [Nat.zero_add, bytes i hi, hsector]
    simp only [ofNat_toNat_small (show n < 2 ^ 31 by omega), hslice, ofNat_sub (show n ≤ stop - p by omega), Nat.sub_sub, hfilepos]
    exact ⟨trivial, dev, rfl⟩

end One

/-! ## The loop -/

section Loop
variable {d : Partition σ} {m : Mount} {inode : Inode} {stack : Block} {s : State σ} {es : List Extent}

theorem Holds.congr {s' : State σ} (h : Holds d m inode s es) (hcursor : ∃ p io, s' = { s with filepos := p, io := io }) :
    Holds d m inode s' es := by
  obtain ⟨p, io, rfl⟩ := hcursor
  cases h with
  | extents format nextents few records => exact .extents format nextents few records
  | leaf format all up =>
    obtain ⟨daddr, fpos, nextents, fits, inside, records, next⟩ := up
    exact .leaf format all (.intro daddr fpos nextents fits inside records next)

theorem readExtent_lost {endpos : Word} {xad : Xad} {t : Reading} (h : Lost d s) : Lost d (readExtent d m stack endpos xad t s).2 := by
  unfold readExtent
  split
  · exact devread_lost h
  · split
    · exact h
    · exact h

theorem readPass_lost {endpos : Word} {fuel : Nat} {t : Reading} {flow : Flow Reading (State σ) (List Byte)}
    (hflow : readPass d m inode stack endpos fuel t s = some flow) (h : Lost d s) : Lost d flow.state := by
  have hnext : Lost d (nextExtent d m inode stack s).2 := nextExtent_lost h
  unfold readPass at hflow
  split at hflow
  · cases hflow
    exact h
  · generalize nextExtent d m inode stack s = r at hflow hnext
    obtain ⟨_ | xad, s'⟩ := r
    · cases hflow
      exact hnext
    · cases hflow
      exact readExtent_lost hnext

/-- **The loop of `xfs_read`** delivers what `Reads` says. -/
theorem readPass_leads (stack : Block) (out₀ : List Byte) {stop p : Nat} {prev : Option Nat} {out : List Byte} (hm : m.Sound)
    (hstop : stop < 2 ^ 31)
    (hreads : Reads m.bsize d.bytes (inode.format = .extents) stop es prev p out) (hle : p ≤ stop) (hholds : Holds d m inode s es)
    (hs : s.filepos = .ofNat 32 p) (hsmall : ∀ b, prev = some b → b < 2 ^ 64) :
    Leads (readPass d m inode stack (.ofNat 32 stop)) (Lost d)
      (fun r s' => r = out₀ ++ out ∧ s'.filepos = .ofNat 32 (p + out.length) ∧ s'.io.errnum = s.io.errnum)
        ⟨.ofNat 32 (stop - p), endofprev prev, out₀⟩ s := by
  -- A pass that begins with an extent.
  have hpass : ∀ {x : Extent} {es : List Extent} {p : Nat} {s : State σ} (t : Reading), p < stop → t.len = .ofNat 32 (stop - p) →
      Holds d m inode s (x :: es) → ∃ xad s₁, (∀ fuel, readPass d m inode stack (.ofNat 32 stop) fuel t s =
        some (.next (readExtent d m stack (.ofNat 32 stop) xad t s₁).1 (readExtent d m stack (.ofNat 32 stop) xad t s₁).2)) ∧
        (xad.Is d m x ∧ Holds d m inode s₁ es ∧ s₁.filepos = s.filepos ∧ s₁.io.errnum = s.io.errnum ∨ Lost d s₁) := by
    intro x es p s t hp ht hholds
    have hgiven : Given d m inode x es s (nextExtent d m inode stack s) := nextExtent_given hm hholds
    generalize hresult : nextExtent d m inode stack s = r at hgiven
    have hlen : 0 < t.len.toInt := by
      rw [ht, ofNat_toInt_small (by omega)]
      omega
    have hflow : ∀ xad s₁, r = (some xad, s₁) → ∀ fuel, readPass d m inode stack (.ofNat 32 stop) fuel t s =
        some (.next (readExtent d m stack (.ofNat 32 stop) xad t s₁).1 (readExtent d m stack (.ofNat 32 stop) xad t s₁).2) := by
      rintro xad s₁ rfl fuel
      simp only [readPass, hresult]
      rw [if_neg (not_not.2 hlen)]
    cases hgiven with
    | given is holds filepos errnum => exact ⟨_, _, hflow _ _ rfl, .inl ⟨is, holds, filepos, errnum⟩⟩
    | lost hlost => exact ⟨_, _, hflow _ _ rfl, .inr hlost⟩
  induction hreads generalizing s out₀ with
  | done =>
    apply Leads.done (r := out₀)
    · intro fuel
      rw [readPass, Nat.sub_self]
      rfl
    · exact .inl ⟨(List.append_nil out₀).symm, hs, rfl⟩
  | @data x es prev p n out lt has count rest ih =>
    obtain ⟨xad, s₁, hflow, ⟨is, hholds, hfilepos, herrnum⟩ | hlost⟩ := hpass ⟨.ofNat 32 (stop - p), endofprev prev, out₀⟩ lt rfl hholds
    · obtain ⟨⟨t, s₂⟩, hresult, ⟨rfl, dev, rfl⟩ | hlost⟩ :=
        readExtent_data stack out₀ (endofprev prev) is hm lt hstop (hfilepos.trans hs) has count
      · have hread := ih (s := { s₁ with filepos := .ofNat 32 (p + n), io := ⟨s₁.io.errnum, dev⟩ })
          (out₀ ++ slice d.bytes (x.start + (p - x.offset * m.bsize)) n)
          (by omega) (hholds.congr ⟨_, _, rfl⟩) rfl (fun b hb => by cases hb; exact (is.bounds hm).2.2)
        rw [hresult] at hflow
        apply Leads.next hflow (hread.imp _)
        rintro r s' ⟨rfl, hend, herr⟩
        refine ⟨List.append_assoc _ _ _, ?_, herr.trans herrnum⟩
        rw [hend, List.length_append, Memory.slice_length, Nat.add_assoc]
      · exact .next hflow (.lost (hresult ▸ hlost))
    · exact .next hflow (.lost (readExtent_lost hlost))
  | @zeros x es b p lt has before all =>
    obtain ⟨xad, s₁, hflow, ⟨is, hholds, hfilepos, herrnum⟩ | hlost⟩ := hpass ⟨.ofNat 32 (stop - p), endofprev (some b), out₀⟩ lt rfl hholds
    · rw [readExtent_zeros is hm lt hstop (hfilepos.trans hs) has before all] at hflow
      apply Leads.next hflow
      apply Leads.done (r := out₀ ++ List.replicate (stop - p) 0)
      · exact fun fuel => rfl
      · refine .inl ⟨rfl, ?_, herrnum⟩
        rw [List.length_replicate, Nat.add_sub_cancel' hle]
    · exact .next hflow (.lost (readExtent_lost hlost))
  | @skip x es prev p out lt has adjacent rest ih =>
    obtain ⟨xad, s₁, hflow, ⟨is, hholds, hfilepos, herrnum⟩ | hlost⟩ := hpass ⟨.ofNat 32 (stop - p), endofprev prev, out₀⟩ lt rfl hholds
    · rw [readExtent_skip is hm (Nat.lt_trans lt hstop) (hfilepos.trans hs) has adjacent hsmall] at hflow
      have hread := ih out₀ hle hholds (hfilepos.trans hs) (fun b hb => by cases hb; exact (is.bounds hm).2.2)
      apply Leads.next hflow (hread.imp _)
      rintro r s' ⟨hr, hend, herr⟩
      exact ⟨hr, hend, herr.trans herrnum⟩
    · exact .next hflow (.lost (readExtent_lost hlost))
  | @short prev p lt hends =>
    apply Leads.done (r := out₀)
    · intro fuel
      simp only [readPass, nextExtent_none hends hholds]
      exact ite_self _
    · exact .inl ⟨(List.append_nil out₀).symm, hs, rfl⟩

end Loop

/-! ## `xfs_read` -/

section Read
variable {d : Partition σ} {m : Mount} {inode : Inode} {stack : Block} {s s' : State σ} {es : List Extent} {p n : Nat} {out : List Byte}

/-- `init_extents` puts the cursor in front of the first extent. -/
theorem initExtents_leads (stack : Block) (hm : m.Sound) (hfile : Stored d m inode es)
    (hptr0 : inode.format = .btree → inode.ptr0 m = inode.first m) (s : State σ) :
    (∀ fuel s', initExtents d m inode stack fuel s = some s' →
      Holds d m inode s' es ∧ s'.filepos = s.filepos ∧ s'.io.errnum = s.io.errnum ∨ Lost d s') ∧
      (¬ Faulty d → ∃ fuel s', ∀ k, fuel ≤ k → initExtents d m inode stack k s = some s') := by
  cases hfile with
  | extents format nextents fits records =>
    have hsize : inode.forkSize m < 2 ^ 16 := by
      have hisize := hm.isize
      have hforkoff := inode.forkoff.isLt
      unfold Inode.forkSize
      split <;> omega
    constructor
    · intro fuel s' hinit
      simp only [initExtents, format] at hinit
      cases hinit
      exact .inl ⟨.extents format nextents (by omega) records, rfl, rfl⟩
    · intro _
      refine ⟨0, { s with xt := 0, nextents := inode.nextents }, fun k _ => ?_⟩
      simp only [initExtents, format]
  | btree format first down leaves =>
    have hleads := initPass_leads (t := ⟨inode.ptr0 m, stack⟩) (s := s) hm format down leaves ((hptr0 format).trans first) rfl rfl
    constructor
    · intro fuel s' hinit
      simp only [initExtents, format] at hinit
      obtain ⟨⟨⟨⟩, s''⟩, hrun, rfl⟩ := Option.map_eq_some_iff.1 hinit
      exact hleads.run initPass_lost hrun
    · intro hhealthy
      obtain ⟨fuel, result, hfuel⟩ := hleads.ends fun g hg => hhealthy hg.2
      refine ⟨fuel, result.2, fun k hk => ?_⟩
      simp only [initExtents, format, hfuel k hk]
      rfl

/-- **`xfs_read`** delivers what `Reads` says. -/
theorem xfsRead_reads (stack : Block) (hm : m.Sound) (hfile : Stored d m inode es)
    (hptr0 : inode.format = .btree → inode.ptr0 m = inode.first m)
    (hmax : p + n < 2 ^ 31) (hreads : Reads m.bsize d.bytes (inode.format = .extents) (p + n) es none p out)
    (hs : s.filepos = .ofNat 32 p) :
    (∀ fuel r s', xfsRead d m inode stack fuel (.ofNat 32 n) s = some (r, s') →
      r = (out, .ofNat 32 out.length) ∧ s'.filepos = .ofNat 32 (p + out.length) ∧ s'.io.errnum = s.io.errnum ∨ Lost d s') ∧
      (¬ Faulty d → ∃ fuel result, ∀ k, fuel ≤ k → xfsRead d m inode stack k (.ofNat 32 n) s = some result) := by
  have hlocal : inode.format ≠ .local := by
    cases hfile with
    | extents format => rw [format]; exact Format.noConfusion
    | btree format => rw [format]; exact Format.noConfusion
  have hend : s.filepos + BitVec.ofNat 32 n = .ofNat 32 (p + n) := by rw [hs, BitVec.ofNat_add]
  have hleads : ∀ s', Holds d m inode s' es → s'.filepos = s.filepos → Leads (readPass d m inode stack (.ofNat 32 (p + n))) (Lost d)
      (fun r s'' => r = [] ++ out ∧ s''.filepos = .ofNat 32 (p + out.length) ∧ s''.io.errnum = s'.io.errnum) ⟨.ofNat 32 n, -1, []⟩ s' := by
    intro s' hholds hfilepos
    have h := readPass_leads stack [] hm hmax hreads (Nat.le_add_right p n) hholds (hfilepos.trans hs) nofun
    rw [Nat.add_sub_cancel_left] at h
    exact h
  obtain ⟨hinit, hends⟩ := initExtents_leads stack hm hfile hptr0 s
  simp only [xfsRead, hlocal, if_false, hend]
  constructor
  · intro fuel r s'' hread
    obtain ⟨s', hs', hread⟩ := Option.bind_eq_some_iff.1 hread
    obtain ⟨⟨bytes, s₁⟩, hrun, hresult⟩ := Option.bind_eq_some_iff.1 hread
    cases hresult
    obtain ⟨hholds, hfilepos, herrnum⟩ | hlost := hinit fuel s' hs'
    · obtain ⟨rfl, hfilepos', herrnum'⟩ | hlost := (hleads s' hholds hfilepos).run readPass_lost hrun
      · refine .inl ⟨?_, hfilepos', herrnum'.trans herrnum⟩
        rw [hfilepos', hs, ofNat_sub (Nat.le_add_right _ _), Nat.add_sub_cancel_left]
      · exact .inr hlost
    · exact .inr (Loop.run_keeps readPass_lost hrun hlost)
  · intro hhealthy
    obtain ⟨fuel, s', hfuel⟩ := hends hhealthy
    have hholds := (hinit fuel s' (hfuel fuel (Nat.le_refl _))).resolve_right fun hlost => hhealthy hlost.2
    obtain ⟨fuel', ⟨bytes, s''⟩, hfuel'⟩ := (hleads s' hholds.1 hholds.2.1).ends fun g hg => hhealthy hg.2
    refine ⟨max fuel fuel', ((bytes, s''.filepos - s.filepos), s''), fun k hk => ?_⟩
    rw [hfuel k (Nat.le_trans (Nat.le_max_left _ _) hk)]
    show (run _ k _ s').bind _ = _
    rw [hfuel' k (Nat.le_trans (Nat.le_max_right _ _) hk)]
    rfl

end Read

/-! ## Seeks and reads -/

section Serve
variable {d : Partition σ} {m : Mount} {inode : Inode} {stack : Block} {s s' : State σ} {es : List Extent} {filemax fuel : Nat}
    {reqs : List (Nat × Nat)}

/-- A seek and a read: what it puts into the buffer, what it returns, and `filepos` behind it. -/
def seekRead (d : Partition σ) (m : Mount) (inode : Inode) (stack : Block) (fuel : Nat) (q : Nat × Nat) (s : State σ) :
    Option ((List Byte × Word × Word) × State σ) := do
  let ((out, ret), s) ← xfsRead d m inode stack fuel (.ofNat 32 q.2) { s with filepos := .ofNat 32 q.1 }
  some ((out, ret, s.filepos), s)

/-- Seeks and reads one after the other. -/
def serve (d : Partition σ) (m : Mount) (inode : Inode) (stack : Block) (fuel : Nat) :
    List (Nat × Nat) → State σ → Option (List (List Byte × Word × Word) × State σ) := Session.serve (seekRead d m inode stack) fuel

/-- What one is to come to. -/
def answer (d : Partition σ) (m : Mount) (es : List Extent) (q : Nat × Nat) : List Byte × Word × Word :=
  (content m.bsize d.bytes es q.1 q.2, .ofNat 32 q.2, .ofNat 32 (q.1 + q.2))

/-- The file is read right: all seeks and reads within it come to what they are to come to,
or a read has failed. -/
structure Right (d : Partition σ) (m : Mount) (inode : Inode) (es : List Extent) (filemax : Nat) : Prop where
  delivered : ∀ {stack : Block} {reqs : List (Nat × Nat)} {s s' : State σ} {fuel : Nat} {r : List (List Byte × Word × Word)},
    (∀ q ∈ reqs, q.1 + q.2 ≤ filemax) → serve d m inode stack fuel reqs s = some (r, s') →
      r = reqs.map (answer d m es) ∧ s'.io.errnum = s.io.errnum ∨ Lost d s'
  ends : ¬ Faulty d → ∀ (stack : Block) (reqs : List (Nat × Nat)) (s : State σ), (∀ q ∈ reqs, q.1 + q.2 ≤ filemax) →
    ∃ fuel result, ∀ k, fuel ≤ k → serve d m inode stack k reqs s = some result

theorem xfsRead_lost {k : Nat} {len : Word} {r : List Byte × Word} (hread : xfsRead d m inode stack k len s = some (r, s')) (h : Lost d s) :
    Lost d s' := by
  unfold xfsRead at hread
  split at hread
  · cases hread
    exact h
  · obtain ⟨s₁, hinit, hread⟩ := Option.bind_eq_some_iff.1 hread
    obtain ⟨⟨bytes, s₂⟩, hrun, hresult⟩ := Option.bind_eq_some_iff.1 hread
    cases hresult
    apply Loop.run_keeps readPass_lost hrun
    unfold initExtents at hinit
    split at hinit
    · cases hinit
      exact h
    · obtain ⟨⟨⟨⟩, s''⟩, hinit', rfl⟩ := Option.map_eq_some_iff.1 hinit
      exact Loop.run_keeps initPass_lost hinit' h
    · cases hinit
      exact h

theorem seekRead_lost {k : Nat} {q : Nat × Nat} {a : List Byte × Word × Word} (h : seekRead d m inode stack k q s = some (a, s'))
    (hs : Lost d s) :
    Lost d s' := by
  obtain ⟨⟨r, s₁⟩, hread, hresult⟩ := Option.bind_eq_some_iff.1 h
  cases hresult
  exact xfsRead_lost hread hs

/-- One read of a file whose extents cover it. -/
theorem seekRead_covered (stack : Block) {q : Nat × Nat} (hm : m.Sound) (hfile : Stored d m inode es)
    (hptr0 : inode.format = .btree → inode.ptr0 m = inode.first m)
    (hsorted : Sorted 0 es) (hmax : filemax < 2 ^ 31) (hcovered : Covered m.bsize filemax 0 es) (hle : q.1 + q.2 ≤ filemax) :
    (∀ fuel a s', seekRead d m inode stack fuel q s = some (a, s') → a = answer d m es q ∧ s'.io.errnum = s.io.errnum ∨ Lost d s') ∧
      (¬ Faulty d → ∃ fuel result, ∀ k, fuel ≤ k → seekRead d m inode stack k q s = some result) := by
  obtain ⟨p, n⟩ := q
  have hreads := Extents.reads_covered d.bytes (inode.format = .extents)
    (Nat.lt_of_lt_of_le (by decide) hm.bsize.1) hcovered hsorted (by omega) (Nat.le_add_right p n) hle
  rw [Nat.add_sub_cancel_left] at hreads
  obtain ⟨hdelivered, hends⟩ := xfsRead_reads stack (s := { s with filepos := .ofNat 32 p }) hm hfile hptr0
    (Nat.lt_of_le_of_lt hle hmax) hreads rfl
  have hlength : (content m.bsize d.bytes es p n).length = n := Memory.slice_length _ _ _
  rw [hlength] at hdelivered
  constructor
  · intro fuel a s' h
    obtain ⟨⟨r, s₁⟩, hread, hresult⟩ := Option.bind_eq_some_iff.1 h
    cases hresult
    obtain ⟨rfl, hfilepos, herrnum⟩ | hlost := hdelivered fuel r s' hread
    · refine .inl ⟨?_, herrnum⟩
      rw [hfilepos]
      rfl
    · exact .inr hlost
  · intro hhealthy
    obtain ⟨fuel, ⟨r, s'⟩, hfuel⟩ := hends hhealthy
    refine ⟨fuel, ((r.1, r.2, s'.filepos), s'), fun k hk => ?_⟩
    rw [seekRead, hfuel k hk]
    rfl

/-- **A file whose extents cover it** is read right. -/
theorem right_of_covered (hm : m.Sound) (hfile : Stored d m inode es) (hptr0 : inode.format = .btree → inode.ptr0 m = inode.first m)
    (hsorted : Sorted 0 es) (hmax : filemax < 2 ^ 31) (hcovered : Covered m.bsize filemax 0 es) : Right d m inode es filemax := by
  constructor
  · intro stack reqs s s' fuel r hwithin hserve
    apply Session.serve_delivers (fun s' : State σ => s'.io.errnum = s.io.errnum) seekRead_lost _ hwithin hserve rfl
    intro fuel q s₁ a s₂ hq hs₁ h
    obtain ⟨ha, herrnum⟩ | hlost := (seekRead_covered stack hm hfile hptr0 hsorted hmax hcovered hq).1 fuel a s₂ h
    · exact .inl ⟨ha, herrnum.trans hs₁⟩
    · exact .inr hlost
  · intro hhealthy stack reqs s hwithin
    apply Session.serve_ends (fun _ => True) _ hwithin trivial
    intro q s hq _
    obtain ⟨fuel, ⟨a, s'⟩, h⟩ := (seekRead_covered stack hm hfile hptr0 hsorted hmax hcovered hq).2 hhealthy
    exact ⟨fuel, a, s', trivial, h⟩

theorem Records.congr {d' : Partition σ} {b : Block} {i : Nat} (h : Records d m b i es) (hd : d'.partLength = d.partLength) :
    Records d' m b i es := by
  induction es generalizing i with
  | nil => trivial
  | cons x es ih =>
    obtain ⟨⟨⟨fsb, hnames, hstored⟩, hoffset, hlen, hend⟩, hrest⟩ := h
    refine ⟨⟨⟨fsb, ⟨hnames.small, hnames.address, ?_⟩, hstored⟩, hoffset, hlen, hend⟩, ih hrest⟩
    rw [hd]
    exact hnames.inside

/-- **Another file with its extents in the inode** is read wrong, even where no read fails. -/
theorem covered_of_right (hm : m.Sound) (hfile : Stored d m inode es) (hformat : inode.format = .extents) (hsorted : Sorted 0 es)
    (hmax : filemax < 2 ^ 31) (hhealthy : ¬ Faulty d) (s : State σ) (hright : ∀ bytes, Right { d with bytes := bytes } m inode es filemax) :
    Covered m.bsize filemax 0 es := by
  by_contra hun
  obtain ⟨p, stop, out, -, hp, hstop, hreads, hout⟩ := Extents.reads_uncovered (Nat.lt_of_lt_of_le (by decide) hm.bsize.1)
    (show (1 : Byte) ≠ 0 by decide) hformat hun hsorted
  have hsum : p + (stop - p) = stop := Nat.add_sub_cancel' (Nat.le_of_lt hp)
  have hone : Stored { d with bytes := fun _ => 1 } m inode es := by
    cases hfile with
    | extents format nextents fits records => exact .extents format nextents fits (records.congr rfl)
    | btree format => exact Format.noConfusion (hformat.symm.trans format)
  have hone' : ¬ Faulty { d with bytes := fun _ => 1 } := hhealthy
  have hread :=
    xfsRead_reads (d := { d with bytes := fun _ => 1 }) (fun _ => 0) (s := { s with filepos := .ofNat 32 p }) (n := stop - p) hm hone
    (fun h => Format.noConfusion (hformat.symm.trans h)) (by omega) (by rw [hsum]; exact hreads) rfl
  obtain ⟨fuel, ⟨⟨out', ret⟩, s'⟩, hfuel⟩ := hread.2 hone'
  have hserve :
      serve { d with bytes := fun _ => 1 } m inode (fun _ => 0) fuel [(p, stop - p)] s = some ([(out', ret, s'.filepos)], s') := by
    rw [serve, Session.serve, seekRead, hfuel fuel (Nat.le_refl _)]
    rfl
  obtain ⟨hr, -⟩ :=
    ((hright fun _ => 1).delivered (by simp only [List.mem_singleton, forall_eq]; omega) hserve).resolve_right fun h => hone' h.2
  obtain ⟨hr', -⟩ := (hread.1 fuel _ s' (hfuel fuel (Nat.le_refl _))).resolve_right fun h => hone' h.2
  obtain ⟨rfl, rfl⟩ := Prod.mk.inj hr'
  exact hout (Prod.mk.inj (List.cons.inj hr).1).1

/-- **Files of XFS.** A file is read right if its extents cover it and, where they are in a
tree, the program finds the root's first pointer. For the extents in an inode, and a drive
that works, the files that are read right are those that they cover. -/
theorem right_iff_covered (hm : m.Sound) (hfile : Stored d m inode es) (hsorted : Sorted 0 es) (hmax : filemax < 2 ^ 31) (s : State σ) :
    (Covered m.bsize filemax 0 es → (inode.format = .btree → inode.ptr0 m = inode.first m) → Right d m inode es filemax) ∧
      (inode.format = .extents → ¬ Faulty d → ((∀ bytes, Right { d with bytes := bytes } m inode es filemax) ↔
        Covered m.bsize filemax 0 es)) := by
  refine ⟨fun hcovered hptr0 => right_of_covered hm hfile hptr0 hsorted hmax hcovered,
    fun hformat hhealthy => ⟨?_, fun hcovered bytes => ?_⟩⟩
  · exact covered_of_right hm hfile hformat hsorted hmax hhealthy s
  · apply right_of_covered hm _ (fun h => Format.noConfusion (hformat.symm.trans h)) hsorted hmax hcovered
    cases hfile with
    | extents format nextents fits records => exact .extents format nextents fits (records.congr rfl)
    | btree format => exact Format.noConfusion (hformat.symm.trans format)

end Serve

/-! ## A file with a hole -/

def samplePartition : Partition Unit := ⟨4096, fun _ => 1, fun _ _ _ _ => (none, ()), ⟨.read, Disk.GrubError.read_ne_none⟩⟩

def sampleMount : Mount := ⟨9, 12, 4096, 256⟩

def sampleInode (es : List Extent) : Inode where
  format := .extents
  nextents := .ofNat 32 es.length
  forkoff := 0
  u i := match es[i / 16]? with
    | some x => (record x (x.start / 512)).extractLsb' (8 * (15 - i % 16)) 8
    | none => 0

def sampleState : State Unit := ⟨0, 0, 0, 0, 0, 0, fun _ => 0, .none, ()⟩

/-- Two blocks one behind the other. -/
def sampleFull : List Extent := [⟨0, 1, 4096, false⟩, ⟨1, 1, 8192, false⟩]

/-- Two blocks with a hole between them. -/
def sampleHole : List Extent := [⟨0, 1, 4096, false⟩, ⟨2, 1, 8192, false⟩]

theorem samplePartition_healthy : ¬ Faulty samplePartition := by
  rintro (⟨dev, pos, n, buf, h⟩ | h)
  · cases h
  · exact absurd h (by decide)

theorem sampleMount_sound : sampleMount.Sound := ⟨by decide, by decide, by decide, by decide, by decide⟩

theorem sampleFull_stored : Stored samplePartition sampleMount (sampleInode sampleFull) sampleFull := by
  refine .extents rfl rfl (by decide) ⟨⟨⟨8, ⟨?_, ?_, ?_⟩, ?_⟩, ?_, ?_, ?_⟩, ⟨⟨16, ⟨?_, ?_, ?_⟩, ?_⟩, ?_, ?_, ?_⟩, trivial⟩ <;> decide

theorem right_iff_covered_full : Right samplePartition sampleMount (sampleInode sampleFull) sampleFull 1024 :=
  (right_iff_covered sampleMount_sound sampleFull_stored (by simp [Sorted, sampleFull, Extent.next]) (by decide) sampleState).1
    (by simp [Covered, sampleFull, sampleMount, Mount.bsize, Extent.next]) (by decide)

/-- All three blocks are asked for, and two are delivered. -/
theorem sampleHole_short : (serve samplePartition sampleMount (sampleInode sampleHole) (fun _ => 0) 4 [(0, 1536)] sampleState).map
    (fun r => r.1.map fun answer => answer.2.1) = some [1024] ∧
      ¬ Right samplePartition sampleMount (sampleInode sampleHole) sampleHole 1536 := by
  have hserve : (serve samplePartition sampleMount (sampleInode sampleHole) (fun _ => 0) 4 [(0, 1536)] sampleState).map
      (fun r => r.1.map fun answer => answer.2.1) = some [1024] := by decide +kernel
  refine ⟨hserve, fun hright => ?_⟩
  obtain ⟨⟨r, s'⟩, hresult, hcount⟩ := Option.map_eq_some_iff.1 hserve
  obtain ⟨rfl, -⟩ := (hright.delivered (by decide) hresult).resolve_right fun h => samplePartition_healthy h.2
  have hwanted : ([(0, 1536)].map (answer samplePartition sampleMount sampleHole)).map (fun answer => answer.2.1) ≠ [1024] := by decide
  exact hwanted hcount

end TrustedGrub.Xfs
