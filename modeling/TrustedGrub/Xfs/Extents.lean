import TrustedGrub.Xfs.Stored

/-!
# The extents of a file, one by one

`init_extents` goes to the first extent of a stored file, and `next_extent` delivers it and
goes to the next. Where a read fails the error is kept to the end.
-/

namespace TrustedGrub.Xfs
open Disk (GrubError)
open Extents (Extent)
open Fsys (Word Long Block Partition Io devread Faulty Read devread_read devread_lost ofNat_succ_ne_zero setWidth_ofNat)
open Loop (Flow Leads)

variable {σ : Type}

/-- A read has failed. -/
abbrev Lost (d : Partition σ) (s : State σ) : Prop := s.io.Lost d

/-! ## Reads -/

section Reads
variable {d : Partition σ} {m : Mount} {pos n : Nat} {b : Block} {s : State σ}

theorem le16_read (h : ∀ i < n, b i = d.bytes (pos + i)) {i : Nat} (hi : i + 2 ≤ n) : le16 b i = le16 d.bytes (pos + i) := by
  rw [le16, le16, h i (by omega), h (i + 1) (by omega), Nat.add_assoc]

theorem le32_read (h : ∀ i < n, b i = d.bytes (pos + i)) {i : Nat} (hi : i + 4 ≤ n) : le32 b i = le32 d.bytes (pos + i) := by
  rw [le32, le32, le16_read h (by omega), le16_read h (by omega), Nat.add_assoc]

theorem le64_read (h : ∀ i < n, b i = d.bytes (pos + i)) {i : Nat} (hi : i + 8 ≤ n) : le64 b i = le64 d.bytes (pos + i) := by
  rw [le64, le64, le32_read h (by omega), le32_read h (by omega), Nat.add_assoc]

theorem RecordAt.read {x : Extent} (h : RecordAt d m d.bytes pos x) (hb : ∀ i < 16, b i = d.bytes (pos + i)) : RecordAt d m b 0 x := by
  obtain ⟨⟨fsb, hnames, hstored⟩, hoffset, hlen, hend⟩ := h
  refine ⟨⟨fsb, hnames, fun k hk => ?_⟩, hoffset, hlen, hend⟩
  rw [Nat.zero_add, hb k hk, hstored k hk]

theorem Mount.Sound.bsize (hm : m.Sound) : 512 ≤ m.bsize ∧ m.bsize ≤ 65536 :=
  ⟨Nat.pow_le_pow_right Nat.two_pos hm.nine, Nat.pow_le_pow_right Nat.two_pos hm.sixteen⟩

/-- A part of a block is read. -/
theorem Names.read {fsb : Nat} (h : Names d m fsb pos m.bsize) (hm : m.Sound) (off n : Nat) (hn : 0 < n) (hoff : off + n ≤ m.bsize)
    (buf : Block) (io : Io σ)
    {daddr : Long} (hdaddr : daddr = fsb2daddr m (.ofNat 64 fsb)) :
    Read d (pos + off) n io (devread d (daddr.setWidth 32) (.ofNat 32 off) (.ofNat 32 n) buf io) := by
  obtain ⟨sector, rfl, hsector, -⟩ := h.sector hm
  have hinside := h.inside
  have hbsize := hm.bsize.2
  have hwide : daddr.setWidth 32 = .ofNat 32 sector := by
    rw [hdaddr, hsector]
    exact BitVec.setWidth_ofNat_of_le (by decide) sector
  rw [hwide]
  exact devread_read sector off n hn (by omega) (by omega) buf io

end Reads

/-! ## `next_extent` -/

/-- What `next_extent` makes of a record. -/
structure Xad.Is (d : Partition σ) (m : Mount) (xad : Xad) (x : Extent) : Prop where
  offset : xad.offset = .ofNat 64 x.offset
  len : xad.len = .ofNat 64 x.len
  start : ∃ sector, x.start = 512 * sector ∧ fsb2daddr m xad.start = .ofNat 64 sector
  inside : x.start + x.len * m.bsize ≤ 512 * d.partLength.toNat
  end_le : x.next * m.bsize ≤ 2 ^ 63

theorem RecordAt.is {d : Partition σ} {m : Mount} {b : Block} {i : Nat} {x : Extent} (h : RecordAt d m b i x) (hm : m.Sound) :
    Xad.Is d m ⟨xtOffset b i, xtStart b i, xtLen b i⟩ x := by
  obtain ⟨⟨fsb, hnames, hstored⟩, hoffset, hlen, hend⟩ := h
  refine ⟨?_, ?_, ?_, hnames.inside, hend⟩
  · show xtOffset b i = _
    rw [xtOffset_record hstored, record_offset, setWidth_ofNat hoffset (by decide)]
  · show xtLen b i = _
    rw [xtLen_record hstored, record_len, setWidth_ofNat hlen (by decide)]
  · obtain ⟨sector, hsector, hdaddr, -⟩ := hnames.sector hm
    refine ⟨sector, hsector, ?_⟩
    show fsb2daddr m (xtStart b i) = _
    rw [xtStart_record hstored, record_start, setWidth_ofNat hnames.small (by decide), hdaddr]

section Next
variable {d : Partition σ} {m : Mount} {inode : Inode} {stack : Block} {s : State σ} {es : List Extent} {x : Extent}

/-- The cursor is in a leaf, in front of the records of `here`. -/
inductive InLeaf (d : Partition σ) (m : Mount) (s : State σ) (here rest : List Extent) : Prop where
  | intro {sector i : Nat} (daddr : s.daddr.setWidth 32 = .ofNat 32 sector) (fpos : s.fpos = .ofNat 32 i)
      (nextents : s.nextents = .ofNat 32 here.length) (fits : i + 16 * here.length ≤ m.bsize)
      (inside : 512 * sector + m.bsize ≤ 512 * d.partLength.toNat) (records : Records d m d.bytes (512 * sector + i) here)
      (next : rest = [] ∨ ∃ fsb, s.next = fsb2daddr m (.ofNat 64 fsb) ∧ Leaves d m fsb rest) : InLeaf d m s here rest

/-- The cursor is in front of the extents `es`. -/
inductive Holds (d : Partition σ) (m : Mount) (inode : Inode) (s : State σ) : List Extent → Prop where
  | extents {es : List Extent} (format : inode.format = .extents) (nextents : s.nextents = .ofNat 32 es.length) (few : es.length < 2 ^ 32)
      (records : Records d m inode.u s.xt es) : Holds d m inode s es
  | leaf {es here rest : List Extent} (format : inode.format = .btree) (all : es = here ++ rest) (up : InLeaf d m s here rest) :
      Holds d m inode s es

/-- A leaf of the tree and what is behind it. -/
theorem Leaves.here {fsb : Nat} (h : Leaves d m fsb es) :
    ∃ pos here rest rightsib, es = here ++ rest ∧ Names d m fsb pos m.bsize ∧ 0 < pos ∧
    LeafAt d m pos here rightsib ∧ (rest = [] ∨ ∃ fsb', rightsib = .ofNat 64 fsb' ∧ Leaves d m fsb' rest) := by
  cases h with
  | last names behind leaf => exact ⟨_, es, [], _, (List.append_nil es).symm, names, behind, leaf, .inl rfl⟩
  | @next _ pos fsb' here rest names behind leaf others => exact ⟨pos, here, rest, _, rfl, names, behind, leaf, .inr ⟨fsb', rfl, others⟩⟩

/-- The header of a leaf puts the cursor in front of its records. -/
theorem LeafAt.up {fsb pos : Nat} {here rest : List Extent} {rightsib : Long} {h : Block} (hm : m.Sound)
    (hnames : Names d m fsb pos m.bsize)
    (hleaf : LeafAt d m pos here rightsib) (hread : ∀ i < 24, h i = d.bytes (pos + i)) (hdaddr : s.daddr = fsb2daddr m (.ofNat 64 fsb))
    (hnext : rest = [] ∨ ∃ fsb, rightsib = .ofNat 64 fsb ∧ Leaves d m fsb rest) : InLeaf d m (s.leaf m h) here rest := by
  obtain ⟨sector, rfl, hsector, -⟩ := hnames.sector hm
  refine .intro ?_ rfl ?_ hleaf.fits hnames.inside hleaf.records ?_
  · show s.daddr.setWidth 32 = _
    rw [hdaddr, hsector]
    exact BitVec.setWidth_ofNat_of_le (by decide) sector
  · show (bbNumrecs h).setWidth 32 = _
    have hlength : here.length < 2 ^ 16 := by
      have hfits := hleaf.fits
      have hbsize := hm.bsize.2
      omega
    rw [bbNumrecs, le16_read hread (by decide), hleaf.numrecs, setWidth_ofNat hlength (by decide)]
  · refine hnext.imp id fun ⟨fsb, hrightsib, hrest⟩ => ⟨fsb, ?_, hrest⟩
    show fsb2daddr m (bbRightsib h) = _
    rw [bbRightsib, le64_read hread (by decide), hleaf.rightsib, hrightsib]

/-- What `next_extent` comes to in front of an extent. -/
inductive Given (d : Partition σ) (m : Mount) (inode : Inode) (x : Extent) (es : List Extent) (s : State σ) :
    Option Xad × State σ → Prop where
  | given {xad : Xad} {s' : State σ} (is : xad.Is d m x) (holds : Holds d m inode s' es) (filepos : s'.filepos = s.filepos)
      (errnum : s'.io.errnum = s.io.errnum) : Given d m inode x es s (some xad, s')
  | lost {xad : Xad} {s' : State σ} (lost : Lost d s') : Given d m inode x es s (some xad, s')

theorem readRecord_lost (h : Lost d s) : Lost d (readRecord d s).2 :=
  devread_lost h

/-- The records of the leaf that is up. -/
theorem readRecord_given {here rest : List Extent} {s₀ : State σ} (hm : m.Sound) (hformat : inode.format = .btree)
    (hup : InLeaf d m s (x :: here) rest) (hfilepos : s.filepos = s₀.filepos) (herrnum : s.io.errnum = s₀.io.errnum) :
    Given d m inode x (here ++ rest) s₀ (readRecord d s) := by
  obtain @⟨sector, i, hdaddr, hfpos, hnextents, hfits, hinside, hrecords, hnext⟩ := hup
  have hbsize := hm.bsize.2
  rw [List.length_cons] at hfits hnextents
  have hread := devread_read (d := d) sector i 16 (by decide) (by omega) (by omega) s.filebuf s.io
  rw [← hdaddr, ← hfpos] at hread
  unfold readRecord
  change Read d _ _ _ (devread d (s.daddr.setWidth 32) s.fpos 16 s.filebuf s.io) at hread
  generalize devread d (s.daddr.setWidth 32) s.fpos 16 s.filebuf s.io = read at hread
  cases hread with
  | failed lost => exact .lost lost
  | @delivered b dev bytes =>
    refine .given ((hrecords.1.read bytes).is hm) (.leaf hformat rfl ?_) hfilepos herrnum
    have hfpos' : s.fpos + 16 = .ofNat 32 (i + 16) := by
      rw [hfpos, BitVec.ofNat_add]
      rfl
    refine .intro hdaddr hfpos' ?_ (by omega) hinside hrecords.2 hnext
    · show s.nextents - 1 = _
      rw [hnextents, BitVec.ofNat_add]
      exact BitVec.add_sub_cancel _ _

/-- The header of the next leaf is there, or it could not be read. -/
theorem nextLeaf_up (stack : Block) {fsb : Nat} (hm : m.Sound) (hfsb : s.next = fsb2daddr m (.ofNat 64 fsb)) (hleaves : Leaves d m fsb es) :
    s.next ≠ 0 ∧
    ((∃ here rest, es = here ++ rest ∧ here ≠ [] ∧ InLeaf d m (nextLeaf d m stack s) here rest ∧
      (nextLeaf d m stack s).filepos = s.filepos ∧
      (nextLeaf d m stack s).io.errnum = s.io.errnum) ∨ Lost d (nextLeaf d m stack s)) := by
  obtain ⟨pos, here, rest, rightsib, hes, hnames, hbehind, hleaf, hothers⟩ := hleaves.here
  constructor
  · obtain ⟨sector, rfl, hdaddr, hsector⟩ := hnames.sector hm
    rw [hfsb, hdaddr]
    intro hzero
    have hvalue := congrArg BitVec.toNat hzero
    rw [BitVec.toNat_ofNat, Nat.mod_eq_of_lt (by omega)] at hvalue
    change sector = 0 at hvalue
    omega
  · have hread := hnames.read hm 0 24 (by decide) (Nat.le_trans (by decide) hm.bsize.1) stack s.io hfsb
    unfold nextLeaf
    change Read d _ _ _ (devread d (s.next.setWidth 32) 0 24 stack s.io) at hread
    generalize devread d (s.next.setWidth 32) 0 24 stack s.io = read at hread
    cases hread with
    | failed lost => exact .inr lost
    | @delivered b dev bytes =>
      refine .inl ⟨here, rest, hes, hleaf.some, ?_, rfl, rfl⟩
      exact hleaf.up (s := { s with daddr := s.next, io := ⟨s.io.errnum, dev⟩ }) hm hnames bytes hfsb hothers

/-- **`next_extent`** delivers the extent that the cursor is in front of. -/
theorem nextExtent_given (hm : m.Sound) (h : Holds d m inode s (x :: es)) : Given d m inode x es s (nextExtent d m inode stack s) := by
  cases h with
  | extents format nextents few records =>
    rw [List.length_cons] at nextents few
    simp only [nextExtent, format]
    rw [if_neg (nextents ▸ ofNat_succ_ne_zero few)]
    refine .given (records.1.is hm) (.extents format ?_ (Nat.lt_of_succ_lt few) records.2) rfl rfl
    show s.nextents - 1 = _
    rw [nextents, BitVec.ofNat_add]
    exact BitVec.add_sub_cancel _ _
  | @leaf here rest format all up =>
    simp only [nextExtent, format]
    cases here with
    | cons y here =>
      obtain ⟨rfl, rfl⟩ := List.cons.inj all
      obtain @⟨sector, i, -, -, hnextents, hfits, -, -, -⟩ := id up
      have hnonempty : s.nextents ≠ 0 := by
        have hbsize := hm.bsize.2
        rw [List.length_cons] at hnextents hfits
        rw [hnextents]
        exact ofNat_succ_ne_zero (by omega)
      rw [if_neg hnonempty]
      exact readRecord_given hm format up rfl rfl
    | nil =>
      obtain rfl : x :: es = rest := all
      obtain ⟨-, -, hnextents, -, -, -, hnone | ⟨fsb, hfsb, hleaves⟩⟩ := up
      · exact absurd hnone (List.cons_ne_nil x es)
      obtain ⟨hnext, hup⟩ := nextLeaf_up stack hm hfsb hleaves
      rw [if_pos (show s.nextents = 0 from hnextents), if_neg hnext]
      obtain ⟨here, rest, hes, hsome, hup, hfilepos, herrnum⟩ | hlost := hup
      · cases here with
        | nil => exact absurd rfl hsome
        | cons y here =>
          obtain ⟨rfl, rfl⟩ := List.cons.inj hes
          exact readRecord_given hm format hup hfilepos herrnum
      · exact .lost (readRecord_lost hlost)

/-- Behind the last extent in an inode there is nothing. -/
theorem nextExtent_none (hformat : inode.format = .extents) (h : Holds d m inode s []) : nextExtent d m inode stack s = (none, s) := by
  cases h with
  | extents _ nextents =>
    simp only [nextExtent, hformat]
    exact if_pos nextents
  | leaf format => exact Format.noConfusion (hformat.symm.trans format)

theorem nextExtent_lost (h : Lost d s) : Lost d (nextExtent d m inode stack s).2 := by
  have hleaf : Lost d (nextLeaf d m stack s) := devread_lost h
  unfold nextExtent
  split
  · split
    · exact h
    · exact h
  · split
    · split
      · exact h
      · exact readRecord_lost hleaf
    · exact readRecord_lost h
  · exact h

/-! ## `init_extents` -/

theorem initPass_lost {fuel : Nat} {t : Init} {flow : Flow Init (State σ) Unit} (hflow : initPass d m fuel t s = some flow) (h : Lost d s) :
    Lost d flow.state := by
  unfold initPass at hflow
  simp only at hflow
  split at hflow
  · obtain rfl := Option.some.inj hflow
    exact devread_lost h
  · obtain rfl := Option.some.inj hflow
    exact devread_lost (devread_lost h)

/-- **The loop of `init_extents`** goes down to the first leaf. -/
theorem initPass_leads {root leaf : Nat} {t : Init} {p : Word} {e : GrubError} (hm : m.Sound) (hformat : inode.format = .btree)
    (hdown : Down d m root leaf)
    (hleaves : Leaves d m leaf es) (hptr0 : t.ptr0 = .ofNat 64 root) (hfilepos : s.filepos = p) (herrnum : s.io.errnum = e) :
    Leads (initPass d m) (Lost d) (fun _ s' => Holds d m inode s' es ∧ s'.filepos = p ∧ s'.io.errnum = e) t s := by
  have hbsize := hm.bsize
  have hheader : ∀ {fsb pos : Nat} {t : Init} (io : Io σ), Names d m fsb pos m.bsize → t.ptr0 = .ofNat 64 fsb →
      Read d pos 24 io (devread d ((fsb2daddr m t.ptr0).setWidth 32) 0 24 t.h io) := by
    intro fsb pos t io names hptr0
    exact names.read hm 0 24 (by decide) (by omega) t.h io (by rw [hptr0])
  -- A block of the tree whose header cannot be read.
  have hlost : ∀ {t : Init} {s : State σ} {b : Block} {io : Io σ} {ok : Bool},
    devread d ((fsb2daddr m t.ptr0).setWidth 32) 0 24 t.h s.io = (ok, b, io) →
      io.Lost d → Leads (initPass d m) (Lost d) (fun _ s' => Holds d m inode s' es ∧ s'.filepos = p ∧ s'.io.errnum = e) t s := by
    intro t s b io ok hresult hlost
    by_cases hlevel : bbLevel b = 0
    · exact .done (fun fuel => by simp only [initPass, hresult]; rw [if_pos hlevel]) (.inr hlost)
    · exact .next (fun fuel => by simp only [initPass, hresult]; rw [if_neg hlevel]) (.lost (devread_lost hlost))
  induction hdown generalizing t s with
  | @leaf root pos names level =>
    obtain ⟨pos', here, rest, rightsib, rfl, hnames, hbehind, hleaf, hothers⟩ := hleaves.here
    obtain rfl := names.address.trans hnames.address.symm
    have hread := hheader s.io names hptr0
    generalize hresult : devread d ((fsb2daddr m t.ptr0).setWidth 32) 0 24 t.h s.io = read at hread
    cases hread with
    | failed lost => exact hlost hresult lost
    | @delivered b dev bytes =>
      have hlevel : bbLevel b = 0 := by rw [bbLevel, le16_read bytes (by decide)]; exact level
      have hpass : ∀ fuel, initPass d m fuel t s =
        some (.done () (State.leaf { s with daddr := fsb2daddr m t.ptr0, io := ⟨s.io.errnum, dev⟩ } m b)) := by
        intro fuel
        simp only [initPass, hresult]
        rw [if_pos hlevel]
      refine .done hpass (.inl ⟨.leaf hformat rfl ?_, hfilepos, herrnum⟩)
      exact hleaf.up hm names bytes (by rw [hptr0]) hothers
  | @node fsb pos fsb' leaf names level first rest ih =>
    have hread := hheader s.io names hptr0
    generalize hresult : devread d ((fsb2daddr m t.ptr0).setWidth 32) 0 24 t.h s.io = read at hread
    cases hread with
    | failed lost => exact hlost hresult lost
    | @delivered b dev bytes =>
      have hlevel : bbLevel b ≠ 0 := by rw [bbLevel, le16_read bytes (by decide)]; exact level
      have hptr : m.btnodePtr0Off + 8 ≤ m.bsize := by
        rw [Mount.btnodePtr0Off]
        omega
      have hread' := names.read hm m.btnodePtr0Off 8 (by decide) hptr (fun i => t.ptr0.extractLsb' (8 * (7 - i)) 8) ⟨s.io.errnum, dev⟩
        (congrArg (fsb2daddr m) hptr0)
      generalize hresult' :
          devread d ((fsb2daddr m t.ptr0).setWidth 32) (.ofNat 32 m.btnodePtr0Off) 8 (fun i => t.ptr0.extractLsb' (8 * (7 - i)) 8)
        ⟨s.io.errnum, dev⟩ = read' at hread'
      have hpass : ∀ fuel, initPass d m fuel t s =
          some (.next ⟨le64 read'.2.1 0, b⟩ { s with daddr := fsb2daddr m t.ptr0, io := read'.2.2 }) := by
        intro fuel
        simp only [initPass, hresult]
        rw [if_neg hlevel, hresult']
      cases hread' with
      | failed lost => exact .next hpass (.lost lost)
      | @delivered ptr0 dev' bytes' =>
        apply Leads.next hpass (ih hleaves _ hfilepos herrnum)
        show le64 ptr0 0 = _
        rw [le64_read bytes' (by decide), Nat.add_zero, first]

end Next

end TrustedGrub.Xfs
