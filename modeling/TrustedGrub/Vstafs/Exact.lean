import Mathlib.Algebra.Order.BigOperators.Group.List
import TrustedGrub.Vstafs.Read

/-!
# Which reads of `vstafs_read` are right

The bytes that it counts and the bytes that it stores come from different sums. Where a second extent is gone through at
all, two runs that start with other bytes in memory tell the two apart: they agree on what has been stored.
-/

namespace TrustedGrub.Vstafs
open Fsys (Byte Word)

variable {v : Volume} {info : FileInfo} {sector : Word} {s t : State} {left cur n : Nat} {ret size currLen offset pos addr top i : Int}

/-! ## Extents -/

section Sizes

theorem FileInfo.len_le_room (hi : n < info.extents) : 512 * (info.blocks n).len.toNat ≤ info.room := by
  apply List.single_le_sum (fun _ _ => Nat.zero_le _)
  apply List.mem_map_of_mem (f := fun i => 512 * (info.blocks i).len.toNat)
  exact List.mem_range.2 hi

theorem Stored.len_lt (h : Stored v info) (hi : n < info.extents) : 512 * (info.blocks n).len.toNat < 2 ^ 31 :=
  Nat.lt_of_le_of_lt (FileInfo.len_le_room hi) h.counted

theorem Stored.toNat_len (h : Stored v info) (hi : n < info.extents) :
    ((info.blocks n).len * 512).toNat = 512 * (info.blocks n).len.toNat := by
  have hlt := h.len_lt hi
  rw [BitVec.toNat_mul]
  simp
  omega

theorem Stored.extSize (h : Stored v info) (hi : n < info.extents) : info.extSize n = 512 * (info.blocks n).len.toNat := by
  have hlt := h.len_lt hi
  rw [FileInfo.extSize, BitVec.toInt_eq_toNat_of_lt]
  all_goals rw [h.toNat_len hi]
  all_goals omega

theorem Stored.extSize_nonneg (h : Stored v info) (hi : n < info.extents) : 0 ≤ info.extSize n := by
  rw [h.extSize hi]
  omega

theorem Stored.extSize_zero (h : Stored v info) : info.extSize 0 = info.firstRoom + 320 := by
  rw [h.extSize h.used, FileInfo.firstRoom, startData]
  omega

theorem Stored.firstRoom_pos (h : Stored v info) : 0 < info.firstRoom := by
  have hfirst := h.first
  rw [FileInfo.firstRoom, startData]
  omega

theorem Stored.room_eq (h : Stored v info) : ((info.blocks 0).len * 512 - 320).toInt = info.firstRoom := by
  have hlt := h.len_lt h.used
  have hfirst := h.first
  have hmul := h.toNat_len h.used
  have hoffset : BitVec.toNat (320 : Word) = 320 := rfl
  rw [FileInfo.firstRoom, startData, BitVec.toInt_eq_toNat_of_lt]
  all_goals rw [BitVec.toNat_sub_of_le (by simp [BitVec.le_def]; omega), hmul]
  · rw [hoffset]
    omega
  · rw [hoffset]
    omega

theorem Stored.size_eq (h : Stored v info) : (info.len - 320).toInt = info.size := by
  have hlen := h.header
  have hroom := Nat.lt_of_le_of_lt h.room h.counted
  rw [startData] at hlen
  rw [FileInfo.size, startData, BitVec.toInt_eq_toNat_of_lt]
  all_goals rw [BitVec.toNat_sub_of_le (by simp [BitVec.le_def]; omega)]
  · rfl
  · simp
    omega

end Sizes

/-! ## Memory -/

section Devread
variable {start : Word} {len : Int}

theorem devread_errnum (h : s.errnum ≠ .none) : (devread v start offset len pos s).errnum ≠ .none := by
  rw [devread]
  split
  · simp
  · rw [if_pos (.inr h)]
    exact h

theorem devread_mem_below (h : i < pos) : (devread v start offset len pos s).mem i = s.mem i := by
  rw [devread]
  split
  · rfl
  · split
    · rfl
    · exact if_neg fun hi => absurd hi.1 (by omega)

theorem devread_mem_behind (h : pos + len ≤ i) : (devread v start offset len pos s).mem i = s.mem i := by
  rw [devread]
  split
  · rfl
  · split
    · rfl
    · exact if_neg fun hi => absurd hi.2 (by omega)

theorem devread_mem_silent (h : len ≤ 0) : (devread v start offset len pos s).mem = s.mem := by
  rw [devread]
  split
  · rfl
  · rw [if_pos (.inl h)]

/-- What is read does not depend on what was in memory. -/
theorem devread_alike (h : s.errnum = t.errnum) :
    (devread v start offset len pos s).errnum = (devread v start offset len pos t).errnum := by
  rw [devread, devread, h]
  split
  · rfl
  · split
    · exact h
    · rfl

theorem devread_agrees (h : s.errnum = t.errnum) (hi : s.mem i = t.mem i) :
    (devread v start offset len pos s).mem i = (devread v start offset len pos t).mem i := by
  rw [devread, devread, h]
  split
  · exact hi
  · split
    · exact hi
    · show (if _ then _ else s.mem i) = if _ then _ else t.mem i
      rw [hi]

/-- What is asked for is stored, or the read fails. -/
theorem devread_stores (h : s.errnum = t.errnum) (hlen : 0 < len) :
    (devread v start offset len pos s).errnum ≠ .none ∨
      (devread v start offset len pos s).mem pos = (devread v start offset len pos t).mem pos := by
  rw [devread, devread, h]
  split
  · left
    simp
  · split
    next hnot => exact .inl (h ▸ hnot.resolve_left (by omega))
    · right
      show (if pos ≤ pos ∧ pos < pos + len then v.bytes _ else s.mem pos) = if pos ≤ pos ∧ pos < pos + len then v.bytes _ else t.mem pos
      rw [if_pos ⟨Int.le_refl _, by omega⟩, if_pos ⟨Int.le_refl _, by omega⟩]

end Devread

/-! ## The record in memory -/

section Record
variable {cells cells' : Nat → Byte} {start : Word} {len : Int}

theorem fieldAt_congr (h : ∀ k < 4, cells (n + k) = cells' (n + k)) : fieldAt cells n = fieldAt cells' n := by
  rw [fieldAt, fieldAt, h 3 (by decide), h 2 (by decide), h 1 (by decide), show cells n = cells' n from h 0 (by decide)]

/-- What is looked at of the record is as it is on the disk. -/
structure Loaded (s : State) (info : FileInfo) : Prop where
  len : s.info.len = info.len
  extents : s.info.extents = info.extents
  blocks : ∀ n < maxExtents, s.info.blocks n = info.blocks n

theorem Loaded.extSize (h : Loaded s info) (hn : n < maxExtents) : s.info.extSize n = info.extSize n := by
  rw [FileInfo.extSize, FileInfo.extSize, h.blocks n hn]

theorem loaded_cells (h : ∀ k < 512, s.mem (recordBuf + (k : Nat)) = cells k) : Loaded s (.decode cells) := by
  have hfield {i : Nat} (hi : i + 3 < 512) : fieldAt (fun k => s.mem (recordBuf + k)) i = fieldAt cells i :=
    fieldAt_congr fun k hk => h (i + k) (by omega)
  refine ⟨hfield (by decide), congrArg BitVec.toNat (hfield (by decide)), fun n hn => ?_⟩
  unfold maxExtents at hn
  have hstart := hfield (i := 40 + 8 * n) (by omega)
  have hlen := hfield (i := 44 + 8 * n) (by omega)
  show Alloc.mk (fieldAt _ _) (fieldAt _ _) = Alloc.mk (fieldAt _ _) (fieldAt _ _)
  rw [hstart, hlen]

/-- Nothing is read over it. -/
theorem Loaded.devread (h : Loaded s info) (hapart : recordBuf + 512 ≤ pos ∨ pos + len ≤ recordBuf) :
    Loaded (devread v start offset len pos s) info := by
  have hsame : Loaded (Vstafs.devread v start offset len pos s) s.info := by
    apply loaded_cells
    intro k hk
    obtain hbefore | hbehind := hapart
    · exact devread_mem_below (by omega)
    · exact devread_mem_behind (by omega)
  exact ⟨hsame.len.trans h.len, hsame.extents.trans h.extents, fun n hn => (hsame.blocks n hn).trans (h.blocks n hn)⟩

end Record

/-! ## The loop over the extents -/

section Run
variable {fuel : Nat}

theorem readExtents_succ (h : cur < s.info.extents) (hs : t = devread v (s.info.blocks cur).start offset (min currLen size) pos s) :
    readExtents v (fuel + 1) cur ret size currLen offset pos s =
      readExtents v fuel (cur + 1) (ret + min currLen size) (size - currLen) (t.info.extSize cur) 0 (pos + t.info.extSize cur) t := by
  rw [readExtents, if_pos h, hs]
  dsimp only
  by_cases hover : size - currLen < 0
  · rw [if_pos hover, if_pos hover, Int.min_eq_right (by omega), Int.add_assoc, show currLen + (size - currLen) = size by omega]
  · rw [if_neg hover, if_neg hover, Int.min_eq_left (by omega)]

theorem readExtents_done (h : ¬ cur < s.info.extents) : readExtents v (fuel + 1) cur ret size currLen offset pos s = some (ret, s) := by
  rw [readExtents, if_neg h]

/-- The passes, where the record stays as it is: as much is counted as is read, and the next extent is placed behind the whole of
this one. -/
def passes (v : Volume) (info : FileInfo) : Nat → Nat → Int → Int → Int → Int → Int → State → Int × State
  | 0, _, ret, _, _, _, _, s => (ret, s)
  | left + 1, cur, ret, size, currLen, offset, pos, s =>
    passes v info left (cur + 1) (ret + min currLen size) (size - currLen) (info.extSize cur) 0 (pos + info.extSize cur)
      (devread v (info.blocks cur).start offset (min currLen size) pos s)

/-- The bytes of some extents, as the loop sees them. -/
def FileInfo.span (info : FileInfo) (cur : Nat) : Nat → Int
  | 0 => 0
  | left + 1 => info.extSize cur + info.span (cur + 1) left

theorem FileInfo.span_nonneg (hext : ∀ n < cur + left, 0 ≤ info.extSize n) : 0 ≤ info.span cur left := by
  induction left generalizing cur with
  | zero => exact Int.le_refl 0
  | succ left ih =>
    have hnow := hext cur (by omega)
    have hnext : 0 ≤ info.span (cur + 1) left := ih fun n hn => hext n (by omega)
    rw [FileInfo.span]
    omega

/-- The passes stay below an address: an extent is read as far as the one before it is long. -/
structure Below (info : FileInfo) (left cur : Nat) (currLen pos top : Int) : Prop where
  ext : ∀ n < cur + left, 0 ≤ info.extSize n
  now : pos + currLen ≤ top
  later : pos + 2 * info.span cur left ≤ top

theorem Below.next (h : Below info (left + 1) cur currLen pos top) :
    Below info left (cur + 1) (info.extSize cur) (pos + info.extSize cur) top := by
  have hlater := h.later
  have hext : ∀ n < cur + 1 + left, 0 ≤ info.extSize n := fun n hn => h.ext n (by omega)
  have hspan := FileInfo.span_nonneg hext
  rw [FileInfo.span] at hlater
  exact ⟨hext, by omega, by have := hext cur (by omega); omega⟩

/-- The record stays as it is where no pass reaches it. -/
theorem Loaded.passes (h : Loaded s info) (hbelow : Below info left cur currLen pos top) (hapart : recordBuf + 512 ≤ pos ∨ top ≤ recordBuf)
    (hleft : info.extents = cur + left) (hfits : info.extents ≤ maxExtents) :
    readExtents v fuel cur ret size currLen offset pos s =
      if left < fuel then some (passes v info left cur ret size currLen offset pos s) else none := by
  induction fuel generalizing left cur ret size currLen offset pos s with
  | zero => rw [if_neg (Nat.not_lt_zero _), readExtents]
  | succ fuel ih =>
    cases left with
    | zero =>
      rw [readExtents_done (by rw [h.extents]; omega), if_pos (Nat.succ_pos _)]
      rfl
    | succ left =>
      have hcur : cur < maxExtents := by omega
      have hnow := hbelow.now
      have hnext : Loaded (Vstafs.devread v (info.blocks cur).start offset (min currLen size) pos s) info :=
        h.devread (hapart.imp id fun htop => by omega)
      have hext := hbelow.ext cur (by omega)
      rw [readExtents_succ (by rw [h.extents]; omega) rfl, h.blocks cur hcur, hnext.extSize hcur,
        ih hnext hbelow.next (hapart.imp (fun hpos => by omega) id) (by omega)]
      exact if_congr Nat.succ_lt_succ_iff.symm rfl rfl

theorem passes_errnum (h : s.errnum ≠ .none) : (passes v info left cur ret size currLen offset pos s).2.errnum ≠ .none := by
  induction left generalizing cur ret size currLen offset pos s with
  | zero => exact h
  | succ left ih => exact ih (devread_errnum h)

theorem passes_agrees (h : s.errnum = t.errnum) (hi : s.mem i = t.mem i) :
    (passes v info left cur ret size currLen offset pos s).2.mem i = (passes v info left cur ret size currLen offset pos t).2.mem i := by
  induction left generalizing cur ret size currLen offset pos s t with
  | zero => exact hi
  | succ left ih => exact ih (devread_alike h) (devread_agrees h hi)

/-- What the first pass is asked for is stored, or the run fails. -/
theorem passes_stores (h : s.errnum = t.errnum) (hasked : 0 < min currLen size) :
    (passes v info (left + 1) cur ret size currLen offset pos s).2.errnum ≠ .none ∨
      (passes v info (left + 1) cur ret size currLen offset pos s).2.mem pos =
        (passes v info (left + 1) cur ret size currLen offset pos t).2.mem pos := by
  simp only [passes]
  exact (devread_stores h hasked).imp passes_errnum (passes_agrees (devread_alike h))

/-- The positions go up, so that what lies below stays. -/
theorem passes_below (hext : ∀ n < cur + left, 0 ≤ info.extSize n) (h : i < pos) :
    (passes v info left cur ret size currLen offset pos s).2.mem i = s.mem i := by
  induction left generalizing cur ret size currLen offset pos s with
  | zero => rfl
  | succ left ih =>
    have hnow := hext cur (by omega)
    rw [passes, ih (fun n hn => hext n (by omega)) (by omega)]
    exact devread_mem_below h

/-- Behind the end of the file, every extent takes away from what has been counted. -/
theorem passes_lt (hext : ∀ n < cur + left, 0 ≤ info.extSize n) (hcurr : 0 ≤ currLen) (hleft : 0 < left) (hsize : size < 0) :
    (passes v info left cur ret size currLen offset pos s).1 < ret := by
  induction left generalizing cur ret size currLen offset pos s with
  | zero => exact absurd hleft (Nat.lt_irrefl 0)
  | succ left ih =>
    rw [passes, Int.min_eq_right (by omega)]
    cases left with
    | zero =>
      show ret + size < ret
      omega
    | succ left =>
      apply Int.lt_trans (b := ret + size)
      · apply ih
        · intro n hn
          exact hext n (by omega)
        · exact hext cur (by omega)
        · omega
        · omega
      · omega

/-- No extent is read to `addr` itself once one has been gone through, unless all before it are empty. -/
theorem passes_origin (hext : ∀ n < cur + left, 0 ≤ info.extSize n) (hcurr : currLen ≤ pos - addr) (hpos : addr ≤ pos) :
    (passes v info left cur ret size currLen offset pos s).2.mem addr = s.mem addr := by
  induction left generalizing cur ret size currLen offset pos s with
  | zero => rfl
  | succ left ih =>
    have hnow := hext cur (by omega)
    rw [passes, ih (fun n hn => hext n (by omega)) (by omega) (by omega)]
    by_cases hzero : pos = addr
    · rw [devread_mem_silent (by omega)]
    · exact devread_mem_below (by omega)

/-- Where nothing is stored and nothing fails, nothing is counted. -/
theorem passes_silent (hst : s.errnum = t.errnum) (hbelow : Below info left cur currLen pos top) (hcurr : 0 ≤ currLen) (hpos : addr ≤ pos)
    (hsize : 0 < size)
    (herr : (passes v info left cur ret size currLen offset pos s).2.errnum = .none)
    (hmem : ∀ i, addr ≤ i → i < top →
      (passes v info left cur ret size currLen offset pos s).2.mem i ≠ (passes v info left cur ret size currLen offset pos t).2.mem i) :
    (passes v info left cur ret size currLen offset pos s).1 = ret := by
  induction left generalizing cur ret size currLen offset pos s t with
  | zero => rfl
  | succ left ih =>
    have hext := hbelow.ext cur (by omega)
    have hnow := hbelow.now
    have hsilent : currLen = 0 := by
      by_contra hne
      obtain hfail | hstored := @passes_stores v info s t left cur ret size currLen offset pos hst (by omega)
      · exact hfail herr
      · exact hmem pos hpos (by omega) hstored
    rw [passes, ih (devread_alike hst) hbelow.next hext (by omega) (by omega) herr hmem, hsilent]
    omega

end Run

/-! ## Two runs -/

section Two
variable {len : Nat}

/-- What a right read leaves of two memories that agree nowhere. -/
structure Alike (addr top : Int) (len : Nat) (s t : State) : Prop where
  errnum : s.errnum = .none
  mem : ∀ i, addr ≤ i → i < top → (s.mem i = t.mem i ↔ i < addr + len)

/-- A read that starts in the first of several extents is right where the others have nothing of the file. -/
theorem alike_first {E : Int} (hst : s.errnum = t.errnum) (hmem : ∀ i, addr ≤ i → i < top → s.mem i ≠ t.mem i)
    (hext : ∀ n < info.extents, 0 ≤ info.extSize n) (hE : 0 < E) (hroom : info.extSize 0 = E + 320) (htop : addr + info.extSize 0 < top)
    (htwo : 2 ≤ info.extents) (hcurr : currLen ≤ E) (hlen : currLen ≤ len) (hsize : len ≤ size)
    (hret : (passes v info info.extents 0 0 size currLen offset addr s).1 = len)
    (halike : Alike addr top len (passes v info info.extents 0 0 size currLen offset addr s).2
      (passes v info info.extents 0 0 size currLen offset addr t).2) :
    info.extents = 2 ∧ currLen = size := by
  obtain ⟨left, hleft⟩ : ∃ left, info.extents = left + 1 + 1 := ⟨info.extents - 2, by omega⟩
  have hstep (u : State) : passes v info (left + 1 + 1) 0 0 size currLen offset addr u =
      passes v info (left + 1) 1 (0 + currLen) (size - currLen) (E + 320) 0 (addr + (E + 320))
        (devread v (info.blocks 0).start offset currLen addr u) := by
    rw [passes, Int.min_eq_left (by omega), hroom]
  rw [hleft] at hext ⊢
  rw [hleft, hstep s] at hret
  rw [hleft, hstep s, hstep t] at halike
  have hcell {u : State} : (devread v (info.blocks 0).start offset currLen addr u).mem (addr + E) = u.mem (addr + E) :=
    devread_mem_behind (by omega)
  have hagree := @devread_alike v s t offset addr (info.blocks 0).start currLen hst
  generalize hfirst : devread v (info.blocks 0).start offset currLen addr s = s₁ at hret halike hagree
  generalize hsecond : devread v (info.blocks 0).start offset currLen addr t = t₁ at halike hagree
  have hdiffer : s₁.mem (addr + E) ≠ t₁.mem (addr + E) := by
    rw [← hfirst, ← hsecond, hcell, hcell]
    exact hmem _ (by omega) (by omega)
  rw [passes] at hret
  have hend : currLen = size := by
    by_contra hne
    have hbelow {u : State} :
        (passes v info (left + 1) 1 (0 + currLen) (size - currLen) (E + 320) 0 (addr + (E + 320)) u).2.mem (addr + E) =
        u.mem (addr + E) := passes_below (fun n hn => hext n (by omega)) (by omega)
    have hshort : ¬ E < len := by
      intro hlong
      have hstored := (halike.mem (addr + E) (by omega) (by omega)).2 (by omega)
      rw [hbelow, hbelow] at hstored
      exact hdiffer hstored
    obtain hfail | hstored :=
      @passes_stores v info s₁ t₁ left 1 (0 + currLen) (size - currLen) (E + 320) 0 (addr + (E + 320)) hagree (by omega)
    · exact hfail halike.errnum
    · have hlast := (halike.mem (addr + (E + 320)) (by omega) (by omega)).1 hstored
      omega
  refine ⟨?_, hend⟩
  by_contra hmore
  refine absurd hret (Int.ne_of_lt (Int.lt_of_lt_of_le (passes_lt ?_ ?_ ?_ ?_) ?_))
  · intro n hn
    exact hext n (by omega)
  · exact hext _ (by omega)
  · omega
  · omega
  · omega

/-- A read that starts behind the first of several extents is never right: what it counts is below zero at first. -/
theorem not_alike_second (hst : s.errnum = t.errnum) (hmem : ∀ i, addr ≤ i → i < top → s.mem i ≠ t.mem i)
    (hbelow : Below info (info.extents - 1) 1 currLen addr top) (htop : addr < top) (htwo : 2 ≤ info.extents) (hcurr : currLen < 0)
    (hsize : 0 < size)
    (hret : (passes v info (info.extents - 1) 1 0 size currLen offset addr s).1 = len) :
    ¬ Alike addr top len (passes v info (info.extents - 1) 1 0 size currLen offset addr s).2
      (passes v info (info.extents - 1) 1 0 size currLen offset addr t).2 := by
  intro halike
  obtain ⟨left, hleft⟩ : ∃ left, info.extents = left + 1 + 1 := ⟨info.extents - 2, by omega⟩
  rw [hleft, Nat.add_sub_cancel] at hbelow
  have hnow := hbelow.ext 1 (by omega)
  have hnext := hbelow.next
  have hstep (u : State) : passes v info (left + 1) 1 0 size currLen offset addr u =
      passes v info left 2 (0 + currLen) (size - currLen) (info.extSize 1) 0 (addr + info.extSize 1)
        (devread v (info.blocks 1).start offset currLen addr u) := by
    rw [passes, Int.min_eq_left (by omega)]
  rw [hleft, Nat.add_sub_cancel, hstep s] at hret
  rw [hleft, Nat.add_sub_cancel, hstep s, hstep t] at halike
  cases len with
  | zero =>
    rw [passes_silent (devread_alike hst) hnext hnow (show addr ≤ addr + info.extSize 1 by omega) (by omega) halike.errnum fun i hi htop =>
      ?_] at hret
    · omega
    · intro hstored
      have hlast := (halike.mem i hi htop).1 hstored
      omega
  | succ len =>
    have hfirst := (halike.mem addr (Int.le_refl _) htop).2 (by omega)
    have hstay {u : State} :
        (passes v info left 2 (0 + currLen) (size - currLen) (info.extSize 1) 0 (addr + info.extSize 1) u).2.mem addr = u.mem addr := by
      apply passes_origin hnext.ext <;> omega
    rw [hstay, hstay, devread_mem_silent (by omega), devread_mem_silent (by omega)] at hfirst
    exact hmem addr (Int.le_refl _) htop hfirst

end Two

/-! ## Where a read starts -/

section Locate
variable {filepos fuel extent : Nat} {offset' : Int}

theorem Loaded.locateLoop (h : Loaded s info) :
    Vstafs.locateLoop s.info fuel offset currLen size = Vstafs.locateLoop info fuel offset currLen size := by
  induction fuel generalizing offset currLen size with
  | zero => rfl
  | succ fuel ih => rw [Vstafs.locateLoop, Vstafs.locateLoop, ih, h.extents, h.extSize (by decide)]

theorem Loaded.locate (h : Loaded s info) {filepos : Int} : Vstafs.locate fuel s.info filepos = Vstafs.locate fuel info filepos := by
  rw [Vstafs.locate, Vstafs.locate, h.locateLoop, h.blocks 0 (by decide)]

theorem locateLoop_unique {fuel' : Nat} {found found' : Int × Int} (h : locateLoop info fuel offset currLen size = some found)
    (h' : locateLoop info fuel' offset currLen size = some found') : found = found' := by
  induction fuel generalizing fuel' offset currLen size with
  | zero => cases h
  | succ fuel ih =>
    cases fuel' with
    | zero => cases h'
    | succ fuel' =>
      rw [locateLoop] at h h'
      split at h
      next hmore =>
        rw [if_pos hmore] at h'
        exact ih h h'
      next hend =>
        rw [if_neg hend] at h'
        exact Option.some.inj (h.symm.trans h')

theorem locate_unique {fuel' : Nat} {filepos : Int} {found found' : Int × Nat × Int} (h : locate fuel info filepos = some found)
    (h' : locate fuel' info filepos = some found') : found = found' := by
  rw [locate] at h h'
  dsimp only at h h'
  split at h
  next hpos =>
    rw [if_pos hpos] at h'
    split at h
    next hfirst =>
      rw [if_pos hfirst] at h'
      exact Option.some.inj (h.symm.trans h')
    next hbehind =>
      rw [if_neg hbehind] at h'
      obtain ⟨loop, hloop, rfl⟩ := Option.map_eq_some_iff.1 h
      obtain ⟨loop', hloop', rfl⟩ := Option.map_eq_some_iff.1 h'
      rw [locateLoop_unique hloop hloop']
  next hzero =>
    rw [if_neg hzero] at h'
    exact Option.some.inj (h.symm.trans h')

theorem locate_zero (h : Stored v info) : locate fuel info (0 : Nat) = some (((0 : Nat) : Int) + 320, 0, info.firstRoom) := by
  rw [locate, if_neg (by decide), h.room_eq, startData]
  rfl

theorem locate_first (h : Stored v info) (hpos : 0 < filepos) (hlt : filepos < info.firstRoom) :
    locate fuel info filepos = some ((filepos : Int) + 320, 0, info.firstRoom - 2 * filepos) := by
  have hlen := h.len_lt h.used
  have hmul := h.toNat_len h.used
  have hroom : ((info.blocks 0).len * 512 - 320).toNat = 512 * (info.blocks 0).len.toNat - 320 := by
    rw [BitVec.toNat_sub_of_le (by simp [BitVec.le_def]; have := h.first; omega), hmul]
    rfl
  rw [FileInfo.firstRoom, startData] at hlt ⊢
  have hless : BitVec.ofInt 32 filepos < (info.blocks 0).len * 512 - 320 := by
    rw [BitVec.lt_def, hroom, BitVec.ofInt_natCast, BitVec.toNat_ofNat]
    omega
  have hbyte : ((info.blocks 0).len * 512).toInt = 512 * (info.blocks 0).len.toNat := h.extSize h.used
  have hoffset : (BitVec.ofInt 32 ((filepos : Int) + 320)).toInt = filepos + 320 := by
    rw [BitVec.toInt_ofInt, Int.bmod_eq_of_le (by omega) (by omega)]
  have hfilepos : (BitVec.ofInt 32 filepos).toInt = filepos := by
    rw [BitVec.toInt_ofInt, Int.bmod_eq_of_le (by omega) (by omega)]
  have hcurr : ((info.blocks 0).len * 512 - BitVec.ofInt 32 ((filepos : Int) + 320) - BitVec.ofInt 32 filepos).toInt =
      512 * (info.blocks 0).len.toNat - ((320 : Nat) : Int) - 2 * filepos := by
    have hinner :
        (512 * ((info.blocks 0).len.toNat : Int) - (filepos + 320)).bmod (2 ^ 32) = 512 * (info.blocks 0).len.toNat - (filepos + 320) :=
      Int.bmod_eq_of_le (by omega) (by omega)
    rw [BitVec.toInt_sub, BitVec.toInt_sub, hbyte, hoffset, hfilepos, hinner, Int.bmod_eq_of_le (by omega) (by omega)]
    omega
  rw [locate, if_pos (by omega), if_pos hless]
  simp only [startData]
  rw [← hcurr]
  rfl

/-- With an extent of a negative size, as the third one of a file with two may have, the search does not end. -/
theorem locateLoop_endless (hext : info.extSize 2 < 0) (hmore : 1 < info.extents) (hoffset : info.extSize 2 < offset) :
    locateLoop info fuel offset currLen (info.extSize 2) = none := by
  induction fuel generalizing offset currLen with
  | zero => rfl
  | succ fuel ih =>
    rw [locateLoop, if_pos ⟨hmore, by omega⟩]
    exact ih (by omega)

/-- The length is below zero in every pass of the search. -/
theorem locateLoop_neg (hlen : currLen < size) (h : locateLoop info fuel offset currLen size = some (offset', i)) : i < 0 := by
  induction fuel generalizing offset currLen size with
  | zero => exact absurd h (by simp [locateLoop])
  | succ fuel ih =>
    rw [locateLoop] at h
    split at h
    next hnext =>
      by_cases hext : info.extSize 2 < 0
      · rw [locateLoop_endless hext hnext.1 hnext.2] at h
        exact absurd h (by simp)
      · exact ih (by omega) h
    next =>
      obtain ⟨-, rfl⟩ := Prod.mk.inj (Option.some.inj h)
      omega

theorem locate_behind (h : Stored v info) (hle : info.firstRoom ≤ filepos) (hsmall : filepos < 2 ^ 31) :
    locate fuel info filepos =
      (locateLoop info fuel (filepos - info.firstRoom) 0 info.firstRoom).map fun (offset, currLen) => (offset, 1, currLen) := by
  have hpos := h.firstRoom_pos
  have hless : ¬ BitVec.ofInt 32 filepos < (info.blocks 0).len * 512 - 320 := by
    have hroom := h.room_eq
    rw [BitVec.lt_def, BitVec.ofInt_natCast, BitVec.toNat_ofNat]
    rw [BitVec.toInt_eq_toNat_cond] at hroom
    split at hroom <;> omega
  rw [locate, if_pos (by omega), if_neg hless, h.room_eq]

theorem locate_second (h : Stored v info) (hle : info.firstRoom ≤ filepos) (hsmall : filepos < 2 ^ 31)
    (hrun : locate fuel info filepos = some (offset', extent, currLen)) : extent = 1 ∧ currLen < 0 := by
  rw [locate_behind h hle hsmall, Option.map_eq_some_iff] at hrun
  obtain ⟨⟨o, c⟩, hloop, heq⟩ := hrun
  obtain ⟨-, rfl, rfl⟩ : o = offset' ∧ 1 = extent ∧ c = currLen := by simpa using heq
  exact ⟨rfl, locateLoop_neg h.firstRoom_pos hloop⟩

theorem locate_end (h : Stored v info) (hone : info.extents = 1) (heq : filepos = info.firstRoom) (hsmall : filepos < 2 ^ 31) :
    locate 1 info filepos = some (-info.firstRoom, 1, -info.firstRoom) := by
  rw [locate_behind h (Int.le_of_eq heq.symm) hsmall, locateLoop, if_neg (by omega), heq]
  simp

end Locate

/-! ## Reads in the first extent -/

section First
variable {byteOffset len filepos : Nat}

theorem toNat_sector {x : Int} (h : 0 ≤ x) (hsmall : x < 2 ^ 31) : ((BitVec.ofInt 32 x).sshiftRight 9).toNat = x.toNat / 512 := by
  have hint : (BitVec.ofInt 32 x).toInt = x := by
    rw [BitVec.toInt_ofInt, Int.bmod_eq_of_le (by omega) (by omega)]
  have hshift : ((BitVec.ofInt 32 x).sshiftRight 9).toInt = x / 512 := by
    rw [BitVec.toInt_sshiftRight, hint, Int.shiftRight_eq_div_pow]
    rfl
  rw [BitVec.toInt_eq_toNat_cond] at hshift
  split at hshift <;> omega

/-- A read inside a partition. -/
theorem devread_inside {start : Word} (hpart : v.partLength.toNat < 2 ^ 31)
    (hinside : 512 * start.toNat + byteOffset + len ≤ 512 * v.partLength.toNat)
    (hsome : 0 < byteOffset + len) (hsmall : byteOffset + len < 2 ^ 31) (hs : s.errnum = .none) :
    devread v start byteOffset len addr s =
      { s with mem := fun x => if addr ≤ x ∧ x < addr + len then v.bytes (512 * start.toNat + byteOffset + (x - addr).toNat) else
                 s.mem x } := by
  have hstart : start.toInt = start.toNat := BitVec.toInt_eq_toNat_of_lt (by omega)
  have hend : (start + (BitVec.ofInt 32 ((byteOffset : Int) + len - 1)).sshiftRight 9).toNat < v.partLength.toNat := by
    rw [BitVec.toNat_add, toNat_sector (by omega) (by omega)]
    omega
  rw [devread, if_neg (by rw [BitVec.le_def, hstart]; omega)]
  by_cases hzero : len = 0
  · rw [if_pos (.inl (by omega))]
    cases s
    simp only [hzero]
    congr 1
    funext x
    rw [if_neg (by omega)]
  · rw [if_neg (by simp [hs]; omega), hstart]
    congr 1
    funext x
    by_cases hx : addr ≤ x ∧ x < addr + len
    · rw [if_pos hx, if_pos hx]
      congr 1
      omega
    · rw [if_neg hx, if_neg hx]

theorem Stored.devread_nothing (h : Stored v info) (hi : n < info.extents) : devread v (info.blocks n).start 0 0 pos s = s := by
  have hbehind := h.behind n hi
  have hinside := h.inside n hi
  have hpart := h.partition
  have hstart : (info.blocks n).start.toInt = (info.blocks n).start.toNat := BitVec.toInt_eq_toNat_of_lt (by omega)
  have hend : ((info.blocks n).start + (BitVec.ofInt 32 (0 + 0 - 1)).sshiftRight 9).toNat < v.partLength.toNat := by
    rw [show (BitVec.ofInt 32 (0 + 0 - 1)).sshiftRight 9 = 4294967295 by decide, BitVec.toNat_add]
    simp
    omega
  rw [devread, if_neg (by rw [BitVec.le_def, hstart]; omega), if_pos (.inl (Int.le_refl 0))]

theorem Stored.fileByte_first (h : Stored v info) (hp : startData + n < 512 * (info.blocks 0).len.toNat) :
    v.fileByte info n = v.bytes (512 * (info.blocks 0).start.toNat + (startData + n)) := by
  obtain ⟨k, hk⟩ : ∃ k, info.extents = k + 1 := ⟨info.extents - 1, by have := h.used; omega⟩
  rw [Volume.fileByte, FileInfo.allocs, hk, List.range_succ_eq_map, List.map_cons, place, if_pos hp]

/-- What a read asks for is stored, and is the file's. -/
theorem Stored.first_extent (h : Stored v info) (addr : Int) (hfit : startData + (filepos + len) ≤ 512 * (info.blocks 0).len.toNat)
    (hs : s.errnum = .none) :
    (devread v (info.blocks 0).start ((filepos : Int) + 320) len addr s).errnum = .none ∧
      ∀ x : Int, (devread v (info.blocks 0).start ((filepos : Int) + 320) len addr s).mem x =
        if addr ≤ x ∧ x < addr + len then v.fileByte info (filepos + (x - addr).toNat) else s.mem x := by
  rw [startData] at hfit
  have hlen := h.len_lt h.used
  have hinside := h.inside 0 h.used
  have hend : 512 * (info.blocks 0).start.toNat + (filepos + 320) + len ≤ 512 * v.partLength.toNat := by
    have hbytes := Nat.mul_le_mul_left 512 hinside
    rw [Nat.mul_add] at hbytes
    rw [Nat.add_assoc]
    apply Nat.le_trans (Nat.add_le_add_left _ _) hbytes
    rwa [Nat.add_comm filepos, Nat.add_assoc]
  have hread : devread v (info.blocks 0).start ((filepos + 320 : Nat) : Int) len addr s = _ :=
    devread_inside h.partition hend (by omega) (by omega) hs
  rw [Int.natCast_add] at hread
  rw [show ((filepos : Int) + 320) = (filepos : Int) + ((320 : Nat) : Int) from rfl, hread]
  refine ⟨hs, fun x => ?_⟩
  by_cases hx : addr ≤ x ∧ x < addr + len
  · rw [if_pos hx, h.fileByte_first (by rw [startData]; omega), startData]
    show (if addr ≤ x ∧ x < addr + (len : Int) then v.bytes _ else s.mem x) = _
    rw [if_pos hx]
    congr 1
    omega
  · rw [if_neg hx]
    exact if_neg hx

/-- `get_file_info` of a sector of the partition. -/
theorem getFileInfo_loaded (hpart : v.partLength.toNat < 2 ^ 31) (hsector : sector.toNat < v.partLength.toNat) (hs : s.errnum = .none) :
    (getFileInfo v sector s).errnum = .none ∧ (getFileInfo v sector s).filepos = s.filepos ∧
      Loaded (getFileInfo v sector s) (v.fileInfo sector) ∧
      ∀ x : Int, (getFileInfo v sector s).mem x =
        if recordBuf ≤ x ∧ x < recordBuf + 512 then v.cells sector (x - recordBuf).toNat else s.mem x := by
  have hread : devread v sector ((0 : Nat) : Int) ((512 : Nat) : Int) recordBuf s = _ :=
    devread_inside hpart (by omega) (by decide) (by decide) hs
  rw [getFileInfo, show (512 : Int) = ((512 : Nat) : Int) from rfl, show (0 : Int) = ((0 : Nat) : Int) from rfl, hread]
  refine ⟨hs, rfl, loaded_cells fun k hk => ?_, fun x => rfl⟩
  show (if recordBuf ≤ recordBuf + (k : Int) ∧ recordBuf + (k : Int) < recordBuf + ((512 : Nat) : Int) then _ else _) = _
  rw [if_pos ⟨by omega, by omega⟩, Volume.cells, Nat.add_zero]
  congr 2
  omega

end First

/-! ## Exactly the right reads -/

section Exact
variable {f len : Nat}

/-- A run, from where it starts. -/
theorem vstafsRead_eq {fuel extent : Nat} (h : Stored v info) (hloaded : Loaded (getFileInfo v sector s) info)
    (hstart : locate fuel info (getFileInfo v sector s).filepos = some (offset, extent, currLen)) :
    vstafsRead v sector fuel addr len s = readExtents v fuel extent 0 info.size (min currLen len) offset addr (getFileInfo v sector s) := by
  have hclamp : (if len < currLen then (len : Int) else currLen) = min currLen len := by
    split <;> omega
  rw [vstafsRead]
  simp only [hloaded.locate, hloaded.len, hstart, h.size_eq, hclamp]

theorem Stored.size_le (h : Stored v info) (hone : info.extents = 1) : (info.size : Int) ≤ info.firstRoom := by
  have hroom := h.room
  have hheader := h.header
  rw [FileInfo.room, hone] at hroom
  simp at hroom
  rw [FileInfo.size, FileInfo.firstRoom]
  omega

theorem FileInfo.first_of_le (hlen : f + len ≤ info.size) (hle : info.size ≤ info.firstRoom) :
    startData + (f + len) ≤ 512 * (info.blocks 0).len.toNat := by
  rw [FileInfo.firstRoom] at hle
  omega

/-- What is looked at again is as it was. -/
theorem Apart.kept (h : Apart info addr len) (hmem : ∀ x : Int, ¬ (addr ≤ x ∧ x < addr + len) → t.mem x = s.mem x)
    (hloaded : Loaded s info) :
    t.info.extents = info.extents ∧
      (info.extents = 2 → (t.info.blocks 0).len = (info.blocks 0).len ∧ (t.info.blocks 1).start = (info.blocks 1).start) := by
  have hcell (k : Nat) (hk : info.Again k) : t.mem (recordBuf + k) = s.mem (recordBuf + k) := by
    apply hmem
    intro hx
    apply h (recordBuf + k) hx.1 hx.2
    rwa [show recordBuf + (k : Int) - recordBuf = k by omega]
  have hfield {i : Nat} (hi : ∀ k < 4, info.Again ((i + k : Nat) : Int)) :
      fieldAt (fun k => t.mem (recordBuf + k)) i = fieldAt (fun k => s.mem (recordBuf + k)) i :=
    fieldAt_congr fun k hk => hcell (i + k) (hi k hk)
  constructor
  · rw [← hloaded.extents]
    exact congrArg BitVec.toNat (hfield (i := 36) fun k hk => .inl (by omega))
  · intro htwo
    rw [← hloaded.blocks 0 (by decide), ← hloaded.blocks 1 (by decide)]
    exact ⟨hfield (i := 44) fun k hk => .inr ⟨htwo, by omega⟩, hfield (i := 48) fun k hk => .inr ⟨htwo, by omega⟩⟩

section Right
variable (h : Stored v (v.fileInfo sector)) (hsector : sector.toNat < v.partLength.toNat)
include h hsector

/-- A read of a file with one extent that leaves enough of it behind. -/
theorem reads_first {c : Int} (hlen : f + len ≤ (v.fileInfo sector).size)
    (hone : (v.fileInfo sector).extents = 1) (hapart : Apart (v.fileInfo sector) addr len)
    (hstart : ∀ fuel, locate fuel (v.fileInfo sector) f = some ((f : Int) + 320, 0, c)) (hc : len ≤ c) : Reads v sector addr f len := by
  intro mem
  obtain ⟨herr, hpos, hloaded, hmem⟩ := getFileInfo_loaded (s := ⟨.none, f, mem⟩) h.partition hsector rfl
  obtain ⟨herr', hmem'⟩ := h.first_extent addr (FileInfo.first_of_le hlen (h.size_le hone)) herr
  refine ⟨2, _, ?_, herr', fun x => (hmem' x).trans (if_congr Iff.rfl rfl (hmem x))⟩
  rw [vstafsRead_eq h hloaded (by rw [hpos]; exact hstart 2), Int.min_eq_right hc]
  have hasked : min (len : Int) (v.fileInfo sector).size = len := Int.min_eq_left (by omega)
  obtain ⟨hextents, -⟩ := hapart.kept (fun x hx => (hmem' x).trans (if_neg hx)) hloaded
  rw [readExtents_succ (by rw [hloaded.extents, hone]; exact Nat.zero_lt_one) rfl, hasked, hloaded.blocks 0 (by decide),
    readExtents_done (by rw [hextents, hone]; exact Nat.lt_irrefl 1), Int.zero_add]

/-- The empty read at the end of a file that fills one extent. -/
theorem reads_end (hlen : f + len ≤ (v.fileInfo sector).size)
    (hone : (v.fileInfo sector).extents = 1) (hf : f = (v.fileInfo sector).firstRoom) : Reads v sector addr f len := by
  intro mem
  have hle := h.size_le hone
  have hfirst := h.firstRoom_pos
  have hsize : (v.fileInfo sector).size < 2 ^ 31 := Nat.lt_of_le_of_lt (Nat.sub_le _ _) (Nat.lt_of_le_of_lt h.room h.counted)
  obtain ⟨herr, hpos, hloaded, hmem⟩ := getFileInfo_loaded (s := ⟨.none, f, mem⟩) h.partition hsector rfl
  obtain rfl : len = 0 := by omega
  refine ⟨1, _, ?_, herr, fun x => ?_⟩
  · rw [vstafsRead_eq h hloaded (by rw [hpos]; exact locate_end h hone hf (by omega)),
      readExtents_done (by rw [hloaded.extents, hone]; exact Nat.lt_irrefl 1)]
    rfl
  · rw [if_neg (by omega)]
    exact hmem x

/-- The whole of a file with two extents, the second one of which is empty. -/
theorem reads_whole (htwo : (v.fileInfo sector).extents = 2)
    (hle : (v.fileInfo sector).size ≤ (v.fileInfo sector).firstRoom) (hapart : Apart (v.fileInfo sector) addr (v.fileInfo sector).size) :
    Reads v sector addr 0 (v.fileInfo sector).size := by
  intro mem
  obtain ⟨herr, hpos, hloaded, hmem⟩ := getFileInfo_loaded (s := ⟨.none, (0 : Nat), mem⟩) h.partition hsector rfl
  obtain ⟨herr', hmem'⟩ := h.first_extent addr (FileInfo.first_of_le (f := 0) (Nat.le_of_eq (Nat.zero_add _)) hle) herr
  refine ⟨3, _, ?_, herr', fun x => (hmem' x).trans (if_congr Iff.rfl rfl (hmem x))⟩
  obtain ⟨hextents, hagain⟩ := hapart.kept (fun x hx => (hmem' x).trans (if_neg hx)) hloaded
  obtain ⟨hlen, hstart⟩ := hagain htwo
  rw [vstafsRead_eq h hloaded (by rw [hpos]; exact locate_zero h), Int.min_eq_right hle]
  generalize hread :
      devread v ((v.fileInfo sector).blocks 0).start (((0 : Nat) : Int) + 320) (v.fileInfo sector).size addr _ = t at hextents hlen hstart ⊢
  have hext : t.info.extSize 0 = (v.fileInfo sector).firstRoom + 320 := by
    rw [← h.extSize_zero, FileInfo.extSize, FileInfo.extSize, hlen]
  have hfirst := h.firstRoom_pos
  rw [readExtents_succ (t := t) (by rw [hloaded.extents, htwo]; decide)
    (by rw [hloaded.blocks 0 (by decide), Int.min_self]; exact hread.symm),
    Int.min_self, Int.sub_self,
    hext, readExtents_succ (t := t) (by rw [hextents, htwo]; decide)
      (by rw [hstart, Int.min_eq_right (by omega)]; exact (h.devread_nothing (by omega)).symm),
    readExtents_done (by rw [hextents, htwo]; decide), Int.min_eq_right (by omega), Int.add_zero, Int.zero_add]

theorem Fits.reads (hlen : f + len ≤ (v.fileInfo sector).size)
    (hapart : Apart (v.fileInfo sector) addr len) (hf : Fits (v.fileInfo sector) f len) : Reads v sector addr f len := by
  obtain ⟨hone, hf⟩ | ⟨htwo, hzero, hwhole, hle⟩ := hf
  · have hle := h.size_le hone
    by_cases hend : f = (v.fileInfo sector).firstRoom
    · exact reads_end h hsector hlen hone hend
    · by_cases hzero : f = 0
      · subst hzero
        exact reads_first h hsector hlen hone hapart (fun _ => locate_zero h) (by omega)
      · exact reads_first h hsector hlen hone hapart (fun _ => locate_first h (by omega) (by omega)) (by omega)
  · rw [hwhole] at hapart
    rw [hzero, hwhole]
    exact reads_whole h hsector htwo (by omega) hapart

end Right

/-! ### Two memories -/

theorem Stored.room_pos (h : Stored v info) : info.extSize 0 ≤ info.room := by
  rw [h.extSize h.used]
  exact Int.ofNat_le.2 (FileInfo.len_le_room h.used)

/-- The bytes of the extents are those that the loop sees. -/
theorem Stored.span_le (h : Stored v info) (hn : n ≤ info.extents) : info.span n (info.extents - n) ≤ info.room := by
  have hspan (left : Nat) : ∀ cur, cur + left = info.extents →
      info.span cur left = (((List.range' cur left).map fun i => 512 * (info.blocks i).len.toNat).sum : Nat) := by
    induction left with
    | zero => exact fun _ _ => rfl
    | succ left ih =>
      intro cur hcur
      rw [FileInfo.span, ih (cur + 1) (by omega), h.extSize (by omega), List.range'_succ, List.map_cons, List.sum_cons]
      push_cast
      rfl
  rw [hspan _ n (by omega), FileInfo.room, List.range_eq_range']
  apply Int.ofNat_le.2
  apply List.Sublist.sum_le_sum
  · apply List.Sublist.map
    rw [show info.extents = n + (info.extents - n) by omega, ← List.range'_append_1, Nat.add_sub_cancel_left, Nat.zero_add]
    exact List.sublist_append_right _ _
  · exact fun _ _ => Nat.zero_le _

/-- A run that ends has found where it starts. -/
theorem vstafsRead_found {fuel : Nat} {filepos : Int} {r : Int × State} (hloaded : Loaded (getFileInfo v sector s) info)
    (hpos : (getFileInfo v sector s).filepos = filepos) (hrun : vstafsRead v sector fuel addr len s = some r) :
    ∃ found, locate fuel info filepos = some found := by
  cases hnone : locate fuel info filepos with
  | none => simp [vstafsRead, hloaded.locate, hpos, hnone] at hrun
  | some found => exact ⟨found, rfl⟩

/-- What a run stores where no pass reaches the record. -/
theorem Clear.run {extent fuel fuel' : Nat} {mem : Int → Byte} {s' : State} (hclear : Clear info addr) (h : Stored v info)
    (hloaded : Loaded (getFileInfo v sector ⟨.none, f, mem⟩) info) (hpos : (getFileInfo v sector ⟨.none, f, mem⟩).filepos = f)
    (hstart : locate fuel' info f = some (offset, extent, currLen)) (hextent : extent ≤ info.extents) (hcurr : currLen ≤ info.extSize 0)
    (hrun : vstafsRead v sector fuel addr len ⟨.none, f, mem⟩ = some (ret, s')) :
    passes v info (info.extents - extent) extent 0 info.size (min currLen len) offset addr (getFileInfo v sector ⟨.none, f, mem⟩) =
      (ret, s') := by
  have hroom := h.room_pos
  have hbelow : Below info (info.extents - extent) extent (min currLen len) addr (addr + 2 * info.room) := by
    have hspan := h.span_le hextent
    exact ⟨fun n hn => h.extSize_nonneg (by omega), by omega, by omega⟩
  obtain ⟨found, hfound⟩ := vstafsRead_found hloaded hpos hrun
  obtain rfl := locate_unique hfound hstart
  rw [vstafsRead_eq h hloaded (by rw [hpos]; exact hfound), hloaded.passes hbelow hclear (by omega) h.fits] at hrun
  split at hrun
  · exact Option.some.inj hrun
  · cases hrun

theorem Reads.fits (h : Stored v (v.fileInfo sector)) (hsector : sector.toNat < v.partLength.toNat)
    (hlen : f + len ≤ (v.fileInfo sector).size)
    (hclear : Clear (v.fileInfo sector) addr) (hr : Reads v sector addr f len) : Fits (v.fileInfo sector) f len := by
  have hE := h.firstRoom_pos
  have hroom := h.room_pos
  have hext := h.extSize_zero
  have hsize : (v.fileInfo sector).size < 2 ^ 31 := Nat.lt_of_le_of_lt (Nat.sub_le _ _) (Nat.lt_of_le_of_lt h.room h.counted)
  obtain ⟨herr₀, hpos₀, hloaded₀, hmem₀⟩ := getFileInfo_loaded (s := ⟨.none, f, fun _ => 0⟩) h.partition hsector rfl
  obtain ⟨herr₁, hpos₁, hloaded₁, hmem₁⟩ := getFileInfo_loaded (s := ⟨.none, f, fun _ => 1⟩) h.partition hsector rfl
  obtain ⟨fuel₀, s', hrun₀, herr, hcells₀⟩ := hr fun _ => 0
  obtain ⟨fuel₁, t', hrun₁, -, hcells₁⟩ := hr fun _ => 1
  have hbehind {x : Int} (hlo : addr ≤ x) (hhi : x < addr + 2 * (v.fileInfo sector).room) : ¬ (recordBuf ≤ x ∧ x < recordBuf + 512) := by
    obtain hbefore | hbehind := hclear <;> omega
  have halike : Alike addr (addr + 2 * (v.fileInfo sector).room) len s' t' := by
    refine ⟨herr, fun x hlo hhi => ?_⟩
    rw [hcells₀, hcells₁, if_neg (hbehind hlo hhi), if_neg (hbehind hlo hhi)]
    by_cases hx : x < addr + len
    · rw [if_pos ⟨hlo, hx⟩, if_pos ⟨hlo, hx⟩]
      exact iff_of_true rfl hx
    · rw [if_neg fun hin => hx hin.2, if_neg fun hin => hx hin.2]
      exact iff_of_false (by decide) hx
  have hdiffer (x : Int) (hlo : addr ≤ x) (hhi : x < addr + 2 * (v.fileInfo sector).room) :
      (getFileInfo v sector ⟨.none, f, fun _ => 0⟩).mem x ≠ (getFileInfo v sector ⟨.none, f, fun _ => 1⟩).mem x := by
    rw [hmem₀, hmem₁, if_neg (hbehind hlo hhi), if_neg (hbehind hlo hhi)]
    show (0 : Byte) ≠ 1
    decide
  have hst := herr₀.trans herr₁.symm
  by_cases hfirst : (v.fileInfo sector).firstRoom ≤ f
  · by_cases hone : (v.fileInfo sector).extents = 1
    · have hle := h.size_le hone
      exact .inl ⟨hone, .inr (.inl (by omega))⟩
    · have hused := h.used
      obtain ⟨⟨offset, extent, currLen⟩, hstart⟩ := vstafsRead_found hloaded₀ hpos₀ hrun₀
      obtain ⟨rfl, hneg⟩ := locate_second h hfirst (by omega) hstart
      have hrun := hclear.run h hloaded₀ hpos₀ hstart (by omega) (by omega) hrun₀
      have hrun' := hclear.run h hloaded₁ hpos₁ hstart (by omega) (by omega) hrun₁
      rw [show s' = _ from (congrArg Prod.snd hrun).symm, show t' = _ from (congrArg Prod.snd hrun').symm] at halike
      have hspan := h.span_le (n := 1) (by omega)
      refine absurd halike (not_alike_second hst hdiffer ⟨fun n hn => h.extSize_nonneg (by omega), by omega, by omega⟩ (by omega) (by omega)
        (by omega) (by omega) ?_)
      exact congrArg Prod.fst hrun
  · obtain ⟨c, hc, hcE, hfits⟩ :
        ∃ c, locate fuel₀ (v.fileInfo sector) f = some ((f : Int) + 320, 0, c) ∧ c ≤ (v.fileInfo sector).firstRoom ∧
        (f = 0 ∨ c = (v.fileInfo sector).firstRoom - 2 * f) := by
      by_cases hzero : f = 0
      · subst hzero
        exact ⟨_, locate_zero h, Int.le_refl _, .inl rfl⟩
      · exact ⟨_, locate_first h (by omega) (by omega), by omega, .inr rfl⟩
    have hrun := hclear.run h hloaded₀ hpos₀ hc (Nat.zero_le _) (by omega) hrun₀
    have hrun' := hclear.run h hloaded₁ hpos₁ hc (Nat.zero_le _) (by omega) hrun₁
    have hret : (passes _ _ _ _ _ _ _ _ _ _).1 = (len : Int) := congrArg Prod.fst hrun
    by_cases hone : (v.fileInfo sector).extents = 1
    · rw [hone, Nat.sub_zero, passes, Int.min_eq_left (by omega), Int.zero_add] at hret
      have hcount : min c len = len := hret
      exact .inl ⟨hone, by omega⟩
    · have hused := h.used
      rw [show s' = _ from (congrArg Prod.snd hrun).symm, show t' = _ from (congrArg Prod.snd hrun').symm] at halike
      obtain ⟨htwo, hwhole⟩ :=
        alike_first hst hdiffer (fun n hn => h.extSize_nonneg hn) hE hext (by omega) (by omega) (by omega) (Int.min_le_right _ _) (by omega)
        hret halike
      exact .inr ⟨htwo, by omega, by omega, by omega⟩

theorem Clear.apart (hclear : Clear info addr) (h : Stored v info) (hlen : f + len ≤ info.size) : Apart info addr len := by
  have hroom := h.room
  have hsize : info.size ≤ info.len.toNat := Nat.sub_le _ _
  intro x hlo hhi hagain
  obtain hx | ⟨-, hx⟩ := hagain <;> obtain hbefore | hbehind := hclear <;> omega

end Exact

/-! ## A file with one extent -/

end TrustedGrub.Vstafs
