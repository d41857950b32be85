import TrustedGrub.Disk.Opened

/-!
# The gzip header

`gunzip_test_header` of a file that is open at its beginning. What a header is, field by field, is said of the content of the
file alone; the passes of `bad_field` come to an end at each field.
-/

namespace TrustedGrub.Disk
open Fips180 (Byte Word Words)
open Memory (segment store)

variable {σ ι : Type} {p : Platform σ ι} {F : List Byte}

/-! ## Headers -/

/-- The file begins with one of the two magic numbers. -/
def Magic (F : List Byte) : Prop := F.take 2 = [0x1F, 0x8B] ∨ F.take 2 = [0x1F, 0x9E]

/-- The method is deflation, and no flag is set that is not supported. -/
def Supported (F : List Byte) : Prop := F.getD 2 0 = 8 ∧ F.getD 3 0 &&& (0x02 ||| 0x20 ||| 0xC0) = 0

/-- An extra field, with its length in front, if it is announced. -/
def ExtraField (flag : Byte) (field : List Byte) : Prop :=
  if flag ≠ 0 then ∃ lo hi data, field = lo :: hi :: data ∧ data.length = lo.toNat + 256 * hi.toNat else field = []

/-- A string with its end, if it is announced. -/
def StringField (flag : Byte) (field : List Byte) : Prop := if flag ≠ 0 then ∃ s, (0 : Byte) ∉ s ∧ field = s ++ [0] else field = []

/-- The optional fields lie behind the first ten bytes, and end at `off`. -/
def FieldsEnd (F : List Byte) (off : Nat) : Prop :=
  ∃ extra name comment rest, F.drop 10 = extra ++ (name ++ (comment ++ rest)) ∧ ExtraField (F.getD 3 0 &&& 0x04) extra ∧
    StringField (F.getD 3 0 &&& 0x08) name ∧ StringField (F.getD 3 0 &&& 0x10) comment ∧
      off = 10 + extra.length + name.length + comment.length

/-! ### A field ends in one place -/

variable {flag : Byte} {a b s t : List Byte}

theorem ExtraField.unique (ha : ExtraField flag a) (hb : ExtraField flag b) (h : a ++ s = b ++ t) : a = b ∧ s = t := by
  unfold ExtraField at ha hb
  split at ha
  next hflag =>
    rw [if_pos hflag] at hb
    obtain ⟨lo, hi, data, rfl, hlen⟩ := ha
    obtain ⟨lo', hi', data', rfl, hlen'⟩ := hb
    rw [List.cons_append, List.cons_append, List.cons_append, List.cons_append] at h
    obtain ⟨hlo, hrest⟩ := List.cons.inj h
    obtain ⟨hhi, hdata⟩ := List.cons.inj hrest
    subst hlo hhi
    obtain ⟨rfl, rfl⟩ := List.append_inj hdata (hlen.trans hlen'.symm)
    exact ⟨rfl, rfl⟩
  next hflag =>
    rw [if_neg hflag] at hb
    subst ha hb
    exact ⟨rfl, h⟩

theorem string_unique {z : Byte} (ha : z ∉ a) (hb : z ∉ b) (h : a ++ z :: s = b ++ z :: t) : a = b ∧ s = t := by
  induction a generalizing b with
  | nil =>
    cases b with
    | nil => exact ⟨rfl, (List.cons.inj h).2⟩
    | cons c b => exact absurd (List.mem_cons.2 (.inl (List.cons.inj h).1)) hb
  | cons c a ih =>
    cases b with
    | nil => exact absurd (List.mem_cons.2 (.inl (List.cons.inj h).1.symm)) ha
    | cons d b =>
      obtain ⟨rfl, htail⟩ := List.cons.inj h
      obtain ⟨rfl, rfl⟩ := ih (fun hin => ha (List.mem_cons_of_mem _ hin)) (fun hin => hb (List.mem_cons_of_mem _ hin)) htail
      exact ⟨rfl, rfl⟩

theorem StringField.unique (ha : StringField flag a) (hb : StringField flag b) (h : a ++ s = b ++ t) : a = b ∧ s = t := by
  unfold StringField at ha hb
  split at ha
  next hflag =>
    rw [if_pos hflag] at hb
    obtain ⟨u, hu, rfl⟩ := ha
    obtain ⟨v, hv, rfl⟩ := hb
    rw [List.append_assoc, List.append_assoc] at h
    obtain ⟨rfl, rfl⟩ := string_unique hu hv h
    exact ⟨rfl, rfl⟩
  next hflag =>
    rw [if_neg hflag] at hb
    subst ha hb
    exact ⟨rfl, h⟩

theorem FieldsEnd.unique {off off' : Nat} (h : FieldsEnd F off) (h' : FieldsEnd F off') : off = off' := by
  obtain ⟨extra, name, comment, rest, hF, hextra, hname, hcomment, rfl⟩ := h
  obtain ⟨extra', name', comment', rest', hF', hextra', hname', hcomment', rfl⟩ := h'
  obtain ⟨rfl, hbehind⟩ := hextra.unique hextra' (hF.symm.trans hF')
  obtain ⟨rfl, hlast⟩ := hname.unique hname' hbehind
  obtain ⟨rfl, -⟩ := hcomment.unique hcomment' hlast
  rfl

/-! ## Reading on -/

/-- The file stands open at `pos`, and the rest is as it was. -/
structure Standing (F : List Byte) (st₀ : State σ ι) (pos : Nat) (st : State σ ι) : Prop where
  open_ : RawOpen st F
  filepos : st.filepos = pos
  inside : pos ≤ F.length
  settings : st.settings = st₀.settings
  reach : (F.length : Int) ≤ st.fsmax

variable {st₀ st : State σ ι} {pos : Nat}

/-- **A read** that goes on from there. -/
theorem Standing.read (hp : p.Healthy) (h : Standing F st₀ pos st) (buf : Dest) (len : Nat) :
    ∃ s, grubRead p st buf len = (((min len (F.length - pos) : Nat) : Int), store buf.bytes 0 ((F.drop pos).take len), s) ∧
      Standing F st₀ (pos + min len (F.length - pos)) s := by
  have hpos := h.filepos
  have hinside := h.inside
  have hmax := h.open_.filemax
  have hstart : st.startOf = pos := by
    rw [State.startOf, hpos, saneFilepos_of_le (by omega) (by omega), Int.toNat_natCast]
  have hcount : countAt F.length st.startOf len = min len (F.length - pos) := by
    rw [hstart, countAt]
    split <;> omega
  have hreach : st.Reaches F len := by
    have hfs := h.reach
    rw [State.Reaches, hcount, hstart]
    omega
  have hkeep := grubRead_keeps (p := p) st buf len
  have hnext := h.open_.read hp (grubReadWith p noRead) buf hreach
  obtain ⟨driver, blocks, heq, -⟩ := raw_read hp (grubReadWith p noRead) h.open_ buf hreach
  rw [← grubRead] at heq hnext
  rw [hcount, hstart] at heq
  have hbytes : segment F pos (min len (F.length - pos)) = (F.drop pos).take len := by
    rw [Memory.segment, List.take_eq_take_iff, List.length_drop]
    omega
  rw [hbytes] at heq
  refine ⟨_, heq, ?_⟩
  rw [heq] at hkeep hnext
  refine ⟨hnext, ?_, by omega, hkeep.trans h.settings, ?_⟩
  · rw [State.measured, State.skipped]
    split <;> split <;> rfl
  · exact h.reach.trans (congrArg Settings.fsmax hkeep).symm.le

theorem Standing.next (hp : p.Healthy) (h : Standing F st₀ pos st) {c : Byte} {rest : List Byte} (hbyte : F.drop pos = c :: rest)
    (ch : Byte) :
    ∃ buf s, grubRead p st (.local fun _ => ch) 1 = (1, buf, s) ∧ buf 0 = c ∧ Standing F st₀ (pos + 1) s ∧ F.drop (pos + 1) = rest := by
  obtain ⟨s, hread, hs⟩ := h.read hp (.local fun _ => ch) 1
  have hlen := congrArg List.length hbyte
  rw [List.length_drop, List.length_cons] at hlen
  have hone : min 1 (F.length - pos) = 1 := by omega
  rw [hone] at hread hs
  refine ⟨_, s, hread, ?_, hs, ?_⟩
  · rw [hbyte, List.take_succ_cons]
    exact Memory.store_at (a := 0) (i := 0) (show 0 < (c :: rest.take 0).length from Nat.succ_pos _)
  · rw [← List.drop_drop, hbyte, List.drop_succ_cons, List.drop_zero]

theorem Standing.last (hp : p.Healthy) (h : Standing F st₀ pos st) (hend : F.drop pos = []) (ch : Byte) :
    ∃ buf s, grubRead p st (.local fun _ => ch) 1 = (0, buf, s) ∧ Standing F st₀ pos s := by
  obtain ⟨s, hread, hs⟩ := h.read hp (.local fun _ => ch) 1
  have hlen := congrArg List.length hend
  rw [List.length_drop, List.length_nil] at hlen
  have hzero : min 1 (F.length - pos) = 0 := by omega
  rw [hzero] at hread hs
  exact ⟨_, s, hread, hs⟩

/-! ## `bad_field` -/

/-- The passes of `bad_field` up to its end: the field is bad or not, and the state then. -/
inductive Skips (p : Platform σ ι) : Int → Byte → State σ ι → Bool → State σ ι → Prop where
  | done {len : Int} {ch : Byte} {st : State σ ι} (stop : if 0 ≤ len then len = 0 else ch = 0) : Skips p len ch st false st
  | next {len : Int} {ch : Byte} {st s s' : State σ ι} {buf : Nat → Byte} {bad : Bool} (go : ¬ if 0 ≤ len then len = 0 else ch = 0)
      (read : grubRead p st (.local fun _ => ch) 1 = (1, buf, s)) (rest : Skips p (if 0 ≤ len then len - 1 else len) (buf 0) s bad s') :
      Skips p len ch st bad s'
  | short {len n : Int} {ch : Byte} {st s : State σ ι} {buf : Nat → Byte} (go : ¬ if 0 ≤ len then len = 0 else ch = 0)
      (read : grubRead p st (.local fun _ => ch) 1 = (n, buf, s)) (short : n ≠ 1) : Skips p len ch st (decide (n = 0)) s

/-- A length is skipped, as far as the file goes. -/
theorem badField_length (hp : p.Healthy) (n : Nat) : ∀ {fuel pos : Nat} (ch : Byte) {st : State σ ι}, n < fuel → Standing F st₀ pos st →
    ∃ bad s, badField p fuel n ch st = (bad, s) ∧ Skips p n ch st bad s ∧ s.errnum = .none ∧
      if pos + n ≤ F.length then bad = false ∧ Standing F st₀ (pos + n) s else bad = true := by
  induction n with
  | zero =>
    intro fuel pos ch st hfuel h
    obtain ⟨fuel, rfl⟩ := Nat.exists_eq_succ_of_ne_zero (Nat.ne_of_gt hfuel)
    have hstop : if (0 : Int) ≤ ((0 : Nat) : Int) then ((0 : Nat) : Int) = 0 else ch = 0 := by
      rw [if_pos (Int.natCast_nonneg 0)]
      rfl
    refine ⟨false, st, ?_, .done hstop, h.open_.errnum, ?_⟩
    · rw [badField, if_pos hstop]
    · rw [if_pos (show pos + 0 ≤ F.length from h.inside)]
      exact ⟨rfl, h⟩
  | succ n ih =>
    intro fuel pos ch st hfuel h
    obtain ⟨fuel, rfl⟩ := Nat.exists_eq_succ_of_ne_zero (Nat.ne_of_gt (Nat.lt_of_le_of_lt (Nat.zero_le _) hfuel))
    have hnonneg : (0 : Int) ≤ ((n + 1 : Nat) : Int) := Int.natCast_nonneg _
    have hgo : ¬ if (0 : Int) ≤ ((n + 1 : Nat) : Int) then ((n + 1 : Nat) : Int) = 0 else ch = 0 := by
      rw [if_pos hnonneg]
      omega
    have hpred : (if (0 : Int) ≤ ((n + 1 : Nat) : Int) then ((n + 1 : Nat) : Int) - 1 else ((n + 1 : Nat) : Int)) = (n : Int) := by
      rw [if_pos hnonneg]
      omega
    rw [badField, if_neg hgo]
    cases hbyte : F.drop pos with
    | nil =>
      obtain ⟨buf, s, hread, hs⟩ := h.last hp hbyte ch
      have hlen := congrArg List.length hbyte
      rw [List.length_drop, List.length_nil] at hlen
      rw [hread]
      refine ⟨true, s, rfl, .short hgo hread (by decide), hs.open_.errnum, ?_⟩
      rw [if_neg (by omega)]
    | cons c rest =>
      obtain ⟨buf, s, hread, -, hs, -⟩ := h.next hp hbyte ch
      obtain ⟨bad, s', hrest, hskips, herr, hend⟩ := ih (buf 0) (Nat.lt_of_succ_lt_succ hfuel) hs
      rw [hread]
      dsimp only
      rw [if_pos rfl, hpred]
      refine ⟨bad, s', hrest, .next hgo hread (hpred ▸ hskips), herr, ?_⟩
      rwa [Nat.add_assoc, Nat.add_comm 1 n] at hend

/-- A string is skipped, up to its end or the end of the file. -/
theorem badField_string (hp : p.Healthy) (l : List Byte) :
    ∀ {fuel pos : Nat} (ch : Byte) {st : State σ ι}, F.drop pos = l → l.length + 1 < fuel →
    ch ≠ 0 → Standing F st₀ pos st → ∃ bad s, badField p fuel (-1) ch st = (bad, s) ∧ Skips p (-1) ch st bad s ∧ s.errnum = .none ∧
      ((bad = true ∧ (0 : Byte) ∉ l) ∨ bad = false ∧ ∃ t rest,
        (0 : Byte) ∉ t ∧ l = t ++ 0 :: rest ∧ Standing F st₀ (pos + t.length + 1) s) := by
  induction l with
  | nil =>
    intro fuel pos ch st hl hfuel hch h
    obtain ⟨fuel, rfl⟩ := Nat.exists_eq_succ_of_ne_zero (Nat.ne_of_gt (Nat.lt_of_le_of_lt (Nat.zero_le _) hfuel))
    obtain ⟨buf, s, hread, hs⟩ := h.last hp hl ch
    have hgo : ¬ if (0 : Int) ≤ -1 then (-1 : Int) = 0 else ch = 0 := by
      rw [if_neg (by decide)]
      exact hch
    rw [badField, if_neg hgo, hread]
    exact ⟨true, s, rfl, .short hgo hread (by decide), hs.open_.errnum, .inl ⟨rfl, List.not_mem_nil⟩⟩
  | cons c l ih =>
    intro fuel pos ch st hl hfuel hch h
    obtain ⟨fuel, rfl⟩ := Nat.exists_eq_succ_of_ne_zero (Nat.ne_of_gt (Nat.lt_of_le_of_lt (Nat.zero_le _) hfuel))
    obtain ⟨buf, s, hread, hbuf, hs, hrest⟩ := h.next hp hl ch
    have hfuel' : l.length + 1 < fuel := Nat.lt_of_succ_lt_succ hfuel
    have hgo : ¬ if (0 : Int) ≤ -1 then (-1 : Int) = 0 else ch = 0 := by
      rw [if_neg (by decide)]
      exact hch
    rw [badField, if_neg hgo, hread]
    dsimp only
    by_cases hc : c = 0
    · obtain ⟨fuel, rfl⟩ := Nat.exists_eq_succ_of_ne_zero (Nat.ne_of_gt (Nat.lt_of_le_of_lt (Nat.zero_le _) hfuel'))
      have hstop : if (0 : Int) ≤ -1 then (-1 : Int) = 0 else buf 0 = 0 := by
        rw [if_neg (by decide)]
        exact hbuf.trans hc
      refine ⟨false, s, ?_, .next hgo hread (.done hstop), hs.open_.errnum, .inr ⟨rfl, [], l, List.not_mem_nil, ?_, hs⟩⟩
      · rw [if_pos rfl]
        show badField p (fuel + 1) (-1) (buf 0) s = _
        rw [badField, if_pos hstop]
      · rw [hc]
        rfl
    · obtain ⟨bad, s', hskip, hskips, herr, hend⟩ := ih (buf 0) hrest hfuel' (hbuf.trans_ne hc) hs
      refine ⟨bad, s', ?_, .next hgo hread hskips, herr, ?_⟩
      · rw [if_pos rfl]
        exact hskip
      · obtain ⟨hbad, hnone⟩ | ⟨hgood, t, rest, ht, rfl, hstand⟩ := hend
        · exact .inl ⟨hbad, fun hin => (List.mem_cons.1 hin).elim (fun hz => hc hz.symm) hnone⟩
        · refine .inr ⟨hgood, c :: t, rest, fun hin => (List.mem_cons.1 hin).elim (fun hz => hc hz.symm) ht, rfl, ?_⟩
          rw [List.length_cons]
          rwa [Nat.add_assoc pos 1, Nat.add_comm 1] at hstand

/-! ## The fields -/

/-- **An announced string**: it is there, and read over, or the header is bad. -/
theorem badString_spec (hp : p.Healthy) (flag : Byte) (h : Standing F st₀ pos st) :
    ∃ bad s, badString p flag st = (bad, s) ∧ s.errnum = .none ∧
    ((bad = true ∧ ∀ field rest, F.drop pos = field ++ rest → ¬ StringField flag field) ∨
      bad = false ∧ ∃ field rest, F.drop pos = field ++ rest ∧ StringField flag field ∧ Standing F st₀ (pos + field.length) s) := by
  unfold badString StringField
  split
  next hflag =>
    have hpasses : (F.drop pos).length + 1 < st.remaining := by
      have hmax := h.open_.filemax
      have hpos := h.filepos
      have hinside := h.inside
      rw [State.remaining, List.length_drop]
      omega
    obtain ⟨bad, s, hskip, -, herr, hend⟩ := badField_string hp (F.drop pos) 1 rfl hpasses (by decide) h
    refine ⟨bad, s, hskip, herr, ?_⟩
    obtain ⟨hbad, hnone⟩ | ⟨hgood, t, rest, ht, hsplit, hs⟩ := hend
    · refine .inl ⟨hbad, ?_⟩
      rintro field rest hsplit ⟨t, -, rfl⟩
      rw [hsplit] at hnone
      exact hnone (List.mem_append_left _ (List.mem_append_right _ (List.mem_singleton.2 rfl)))
    · refine .inr ⟨hgood, t ++ [0], rest, ?_, ⟨t, ht, rfl⟩, ?_⟩
      · rw [hsplit, List.append_assoc]
        rfl
      · rw [List.length_append, List.length_singleton, ← Nat.add_assoc]
        exact hs
  next hflag => exact ⟨false, st, rfl, h.open_.errnum, .inr ⟨rfl, [], F.drop pos, rfl, rfl, h⟩⟩

/-- **The method, the flags and the extra field**. -/
theorem badExtra_spec (hp : p.Healthy) {buf : Nat → Byte} (hmethod : buf 2 = F.getD 2 0) (hflags : buf 3 = F.getD 3 0)
    (h : Standing F st₀ pos st) :
    ∃ bad s, badExtra p buf st = (bad, s) ∧ s.errnum = .none ∧
      ((bad = true ∧ ∀ field rest, F.drop pos = field ++ rest → ¬ (Supported F ∧ ExtraField (F.getD 3 0 &&& 0x04) field)) ∨
        bad = false ∧ Supported F ∧ ∃ field rest, F.drop pos = field ++ rest ∧ ExtraField (F.getD 3 0 &&& 0x04) field ∧
          Standing F st₀ (pos + field.length) s) := by
  unfold badExtra ExtraField Supported
  rw [hmethod, hflags]
  split
  next hunsupported =>
    refine ⟨true, st, rfl, h.open_.errnum, .inl ⟨rfl, fun field rest _ hall => ?_⟩⟩
    obtain hbad | hbad := hunsupported
    · exact hbad hall.1.1
    · exact hbad hall.1.2
  next hsupported =>
    obtain ⟨hdeflated, hflagged⟩ := not_or.1 hsupported
    have hdeflated := not_not.1 hdeflated
    have hflagged := not_not.1 hflagged
    split
    next hflag =>
      have hinside := h.inside
      obtain ⟨s, hread, hs⟩ := h.read hp (.local buf) 2
      change grubRead p st (.local buf) 2 = _ at hread
      rw [hread]
      dsimp only
      by_cases hshort : (((min 2 (F.length - pos) : Nat) : Int)) ≠ 2
      · rw [if_pos hshort]
        refine ⟨true, s, rfl, hs.open_.errnum, .inl ⟨rfl, ?_⟩⟩
        rintro field rest hsplit ⟨-, lo, hi, data, rfl, -⟩
        have hlen := congrArg List.length hsplit
        simp only [List.length_drop, List.length_append, List.length_cons] at hlen
        omega
      · rw [if_neg hshort]
        have htwo : min 2 (F.length - pos) = 2 := by omega
        obtain ⟨lo, hi, behind, hbytes⟩ : ∃ lo hi behind, F.drop pos = lo :: hi :: behind := by
          have hlen : 2 ≤ (F.drop pos).length := by
            rw [List.length_drop]
            omega
          match F.drop pos, hlen with
          | lo :: hi :: behind, _ => exact ⟨lo, hi, behind, rfl⟩
        have hvalue : ushortAt (store (Dest.local buf).bytes 0 ((F.drop pos).take 2)) 0 = lo.toNat + 256 * hi.toNat := by
          have hlo : store (Dest.local buf).bytes 0 [lo, hi] 0 = lo :=
            Memory.store_at (a := 0) (i := 0) (show 0 < [lo, hi].length from Nat.succ_pos _)
          have hhi : store (Dest.local buf).bytes 0 [lo, hi] 1 = hi :=
            Memory.store_at (a := 0) (i := 1) (show 1 < [lo, hi].length from Nat.lt_succ_self _)
          rw [hbytes]
          show (store (Dest.local buf).bytes 0 [lo, hi] 0).toNat + 256 * (store (Dest.local buf).bytes 0 [lo, hi] 1).toNat = _
          rw [hlo, hhi]
        rw [htwo] at hs
        rw [hvalue]
        obtain ⟨bad, s', hskip, -, herr, hend⟩ := badField_length hp (lo.toNat + 256 * hi.toNat) 1 (Nat.lt_succ_self _) hs
        refine ⟨bad, s', hskip, herr, ?_⟩
        have hall := congrArg List.length hbytes
        simp only [List.length_drop, List.length_cons] at hall
        split at hend
        next hfits =>
          refine .inr ⟨hend.1, ⟨hdeflated, hflagged⟩, lo :: hi :: behind.take (lo.toNat + 256 * hi.toNat),
            behind.drop (lo.toNat + 256 * hi.toNat), ?_,
            ⟨lo, hi, _, rfl, ?_⟩, ?_⟩
          · rw [List.cons_append, List.cons_append, List.take_append_drop, hbytes]
          · rw [List.length_take]
            omega
          · have hlen : (lo :: hi :: behind.take (lo.toNat + 256 * hi.toNat)).length = 2 + (lo.toNat + 256 * hi.toNat) := by
              rw [List.length_cons, List.length_cons, List.length_take]
              omega
            rw [hlen, ← Nat.add_assoc]
            exact hend.2
        next hover =>
          refine .inl ⟨hend, ?_⟩
          rintro field rest hsplit ⟨-, lo', hi', data, rfl, hdata⟩
          rw [hbytes, List.cons_append, List.cons_append] at hsplit
          obtain ⟨rfl, htail⟩ := List.cons.inj hsplit
          obtain ⟨rfl, hbehind⟩ := List.cons.inj htail
          have hlen := congrArg List.length hbehind
          rw [List.length_append] at hlen
          omega
    next hflag => exact ⟨false, st, rfl, h.open_.errnum, .inr ⟨rfl, ⟨hdeflated, hflagged⟩, [], F.drop pos, rfl, rfl, h⟩⟩

/-- **The consistency checks**: the optional fields are there, and read over, or the header is bad. -/
theorem badHeader_spec (hp : p.Healthy) {buf : Nat → Byte} (hmethod : buf 2 = F.getD 2 0) (hflags : buf 3 = F.getD 3 0)
    (h : Standing F st₀ 10 st) :
    ∃ bad s, badHeader p buf st = (bad, s) ∧ s.errnum = .none ∧
      ((bad = true ∧ ¬ ∃ off, Supported F ∧ FieldsEnd F off) ∨ bad = false ∧ Supported F ∧ ∃ off,
        FieldsEnd F off ∧ Standing F st₀ off s) := by
  unfold badHeader
  rw [hflags]
  obtain ⟨bad, s, hrun, herr, hend⟩ := badExtra_spec hp hmethod hflags h
  rw [hrun]
  dsimp only
  obtain ⟨rfl, hnone⟩ | ⟨rfl, hsupported, extra, rest, hextra, hannounced, hs⟩ := hend
  · rw [if_pos rfl]
    refine ⟨true, s, rfl, herr, .inl ⟨rfl, ?_⟩⟩
    rintro ⟨off, hsupported, extra, name, comment, rest, hF, hextra, -⟩
    exact hnone extra _ hF ⟨hsupported, hextra⟩
  have hbehind : F.drop (10 + extra.length) = rest := by rw [← List.drop_drop, hextra, List.drop_left]
  rw [if_neg Bool.false_ne_true]
  obtain ⟨bad, s₁, hrun₁, herr₁, hend₁⟩ := badString_spec hp (F.getD 3 0 &&& 0x08) hs
  rw [hrun₁]
  dsimp only
  obtain ⟨rfl, hnone⟩ | ⟨rfl, name, rest₁, hname, hnamed, hs₁⟩ := hend₁
  · rw [if_pos rfl]
    refine ⟨true, s₁, rfl, herr₁, .inl ⟨rfl, ?_⟩⟩
    rintro ⟨off, -, extra', name, comment, rest', hF, hextra', hnamed, -⟩
    obtain ⟨rfl, hrest⟩ := hannounced.unique hextra' (hextra.symm.trans hF)
    exact hnone name _ (hbehind.trans hrest) hnamed
  have hbehind₁ : F.drop (10 + extra.length + name.length) = rest₁ := by rw [← List.drop_drop, hname, List.drop_left]
  rw [if_neg Bool.false_ne_true]
  obtain ⟨bad, s₂, hrun₂, herr₂, hend₂⟩ := badString_spec hp (F.getD 3 0 &&& 0x10) hs₁
  refine ⟨bad, s₂, hrun₂, herr₂, ?_⟩
  obtain ⟨rfl, hnone⟩ | ⟨rfl, comment, rest₂, hcomment, hcommented, hs₂⟩ := hend₂
  · refine .inl ⟨rfl, ?_⟩
    rintro ⟨off, -, extra', name', comment, rest', hF, hextra', hnamed', hcommented, -⟩
    obtain ⟨rfl, hrest⟩ := hannounced.unique hextra' (hextra.symm.trans hF)
    obtain ⟨rfl, hrest₁⟩ := hnamed.unique hnamed' (hname.symm.trans (hbehind.trans hrest))
    exact hnone comment _ (hbehind₁.trans hrest₁) hcommented
  · refine .inr ⟨rfl, hsupported, _, ⟨extra, name, comment, rest₂, ?_, hannounced, hnamed, hcommented, rfl⟩, hs₂⟩
    rw [hextra, ← hbehind, hname, ← hbehind₁, hcomment]

/-! ## The whole test -/

/-- The last four bytes of the file, as an `int`. -/
def trailerSize (F : List Byte) : Int := longAt (fun i => F.getD (F.length - 8 + i) 0) 4

/-- The file is compressed, from `off` on, and has the size that the trailer tells. -/
structure Recognized (F : List Byte) (st₀ : State σ ι) (off : Nat) (st : State σ ι) : Prop where
  compressedFile : st.compressedFile = true
  filepos : st.filepos = 0
  dataOffset : st.gzip.dataOffset = off
  filemax : st.filemax = trailerSize F
  fsmax : st.fsmax = trailerSize F
  gzipFilemax : st.gzip.filemax = F.length
  gzipFsmax : st.gzip.fsmax = st₀.fsmax

theorem State.unpacking_eq (st : State σ ι) (size : Int) :
    ((st.unpacking p size).compressedFile = true ∧ (st.unpacking p size).filepos = 0 ∧ (st.unpacking p size).filemax = size ∧
      (st.unpacking p size).fsmax = size) ∧
    (st.unpacking p size).gzip.dataOffset = st.gzip.dataOffset ∧ (st.unpacking p size).gzip.filemax = st.filemax ∧
      (st.unpacking p size).gzip.fsmax = st.fsmax := ⟨⟨rfl, rfl, rfl, rfl⟩, rfl, rfl, rfl⟩

/-- The trailer is the last eight bytes of the file. -/
theorem gunzipTrailer_spec (hp : p.Healthy) (hten : 10 ≤ F.length) {off : Nat} (h : Standing F st₀ off st) :
    ∃ s, gunzipTrailer p st = (true, s) ∧ Recognized F st₀ off s := by
  have hmax := h.open_.filemax
  have hat : Standing F st.atTrailer (F.length - 8) st.atTrailer := by
    refine ⟨h.open_.atTrailer, ?_, Nat.sub_le _ _, rfl, h.reach⟩
    show st.filemax - 8 = _
    omega
  obtain ⟨s, hread, hs⟩ := hat.read hp (.local fun _ => 0) 8
  have height : min 8 (F.length - (F.length - 8)) = 8 := by omega
  rw [height] at hread hs
  change grubRead p st.atTrailer (.local fun _ => 0) 8 = (8, _, s) at hread
  have hsettings := hs.settings
  have hsize : longAt (store (Dest.local fun _ => 0).bytes 0 ((F.drop (F.length - 8)).take 8)) 4 = trailerSize F := by
    have hbyte (i : Nat) (hi : i < 8) :
        store (Dest.local fun _ => 0).bytes 0 ((F.drop (F.length - 8)).take 8) i = F.getD (F.length - 8 + i) 0 := by
      have hin : i < ((F.drop (F.length - 8)).take 8).length := by
        rw [List.length_take, List.length_drop]
        omega
      have hstored := Memory.store_at (m := (Dest.local fun _ => 0).bytes) (a := 0) hin
      rw [Nat.zero_add] at hstored
      rw [hstored, List.getElem_take, List.getElem_drop, List.getD_eq_getElem?_getD, List.getElem?_eq_getElem (by omega), Option.getD_some]
    unfold trailerSize longAt ushortAt
    rw [hbyte 4 (by omega), hbyte (4 + 1) (by omega), hbyte (4 + 2) (by omega), hbyte (4 + 2 + 1) (by omega)]
  obtain ⟨⟨hcompressed, hfilepos, hfilemax, hfsmax⟩, hoffset, hgzipFilemax, hgzipFsmax⟩ := s.unpacking_eq (p := p) (trailerSize F)
  refine ⟨s.unpacking p (trailerSize F), ?_, hcompressed, hfilepos, ?_, hfilemax, hfsmax, ?_, ?_⟩
  · unfold gunzipTrailer
    rw [hread]
    dsimp only
    rw [if_neg (not_not_intro rfl), hsize]
  · exact hoffset.trans ((congrArg Settings.gzipDataOffset hsettings).trans h.filepos)
  · exact hgzipFilemax.trans ((congrArg Settings.filemax hsettings).trans hmax)
  · exact hgzipFsmax.trans ((congrArg Settings.fsmax hsettings).trans (congrArg Settings.fsmax h.settings))

/-- The first two bytes. -/
theorem magic_iff {buf : Nat → Byte} (hfirst : buf 0 = F.getD 0 0) (hsecond : buf 1 = F.getD 1 0) (hlen : 2 ≤ F.length) :
    (ushortAt buf 0 = 0x8B1F ∨ ushortAt buf 0 = 0x9E1F) ↔ Magic F := by
  match F, hlen with
  | c :: d :: rest, _ =>
    have hc : buf 0 = c := hfirst
    have hd : buf 1 = d := hsecond
    have hpair (x y : Byte) : ushortAt buf 0 = x.toNat + 256 * y.toNat ↔ [c, d] = [x, y] := by
      have hx := x.isLt
      have hxc := c.isLt
      show (buf 0).toNat + 256 * (buf 1).toNat = _ ↔ _
      rw [hc, hd]
      constructor
      · intro heq
        have hxeq : c = x := BitVec.eq_of_toNat_eq (by omega)
        have hyeq : d = y := BitVec.eq_of_toNat_eq (by omega)
        rw [hxeq, hyeq]
      · intro heq
        obtain ⟨rfl, htail⟩ := List.cons.inj heq
        obtain ⟨rfl, -⟩ := List.cons.inj htail
        rfl
    have hnew : (0x1F : Byte).toNat + 256 * (0x8B : Byte).toNat = 0x8B1F := by decide
    have hold : (0x1F : Byte).toNat + 256 * (0x9E : Byte).toNat = 0x9E1F := by decide
    rw [← hnew, ← hold, hpair, hpair]
    exact Iff.rfl

/-- The first ten bytes, when the file has them. -/
theorem firstBytes (hten : 10 ≤ F.length) {i : Nat} (hi : i < 10) :
    store (Dest.local fun _ => 0).bytes 0 ((F.drop 0).take 10) i = F.getD i 0 := by
  have hin : i < ((F.drop 0).take 10).length := by
    rw [List.length_take, List.drop_zero]
    omega
  have hstored := Memory.store_at (m := (Dest.local fun _ => 0).bytes) (a := 0) hin
  rw [Nat.zero_add] at hstored
  rw [hstored, List.getElem_take, List.getElem_drop, List.getD_eq_getElem?_getD, List.getElem?_eq_getElem (by omega), Option.getD_some]
  congr 1
  omega

/-- What `gunzip_test_header` does behind the magic number. -/
def headed (p : Platform σ ι) (buf : Nat → Byte) (st : State σ ι) : Bool × State σ ι :=
  let (bad, st) := badHeader p buf st
  if bad then (false, st.badGzipHeader) else gunzipTrailer p st

theorem gunzipTestHeader_eq {n : Int} {buf : Nat → Byte} {s : State σ ι} (hno : st.noDecompression = false)
    (hread : grubRead p st (.local fun _ => 0) 10 = (n, buf, s)) :
    gunzipTestHeader p st =
      if n ≠ 10 ∨ ushortAt buf 0 ≠ 0x8B1F ∧ ushortAt buf 0 ≠ 0x9E1F then (decide (s.errnum = .none), s.atStart)
      else headed p buf s := by
  unfold gunzipTestHeader
  rw [if_neg (by rw [hno]; exact Bool.false_ne_true), hread]
  rfl

/-- What `gunzip_test_header` has to come to. -/
structure Tested (p : Platform σ ι) (F : List Byte) (st : State σ ι) : Prop where
  /-- Without the magic number, or with less than ten bytes, the file is plain. -/
  plain : ¬ (10 ≤ F.length ∧ Magic F) → ∃ s, gunzipTestHeader p st = (true, s) ∧ RawOpen s F ∧ s.filepos = 0
  /-- A whole header is accepted. -/
  accepted : ∀ off, 10 ≤ F.length → Magic F → Supported F → FieldsEnd F off → ∃ s, gunzipTestHeader p st = (true, s) ∧ Recognized F st off s
  /-- What is not supported, and what runs past the end, is an error. -/
  refused : 10 ≤ F.length → Magic F → (¬ ∃ off, Supported F ∧ FieldsEnd F off) → ∃ s,
    gunzipTestHeader p st = (false, s) ∧ s.errnum = .badGzipHeader

/-- **The test of a header**, of any file. -/
theorem gunzipTestHeader_spec (hp : p.Healthy) (h : Standing F st 0 st) (hno : st.noDecompression = false) : Tested p F st := by
  obtain ⟨s, hread, hs⟩ := h.read hp (.local fun _ => 0) 10
  change grubRead p st (.local fun _ => 0) 10 = _ at hread
  rw [Nat.zero_add, Nat.sub_zero] at hs
  rw [Nat.sub_zero] at hread
  have hrun := gunzipTestHeader_eq hno hread
  have hten (hlen : 10 ≤ F.length) (hmagic : Magic F) :
      gunzipTestHeader p st = headed p (store (Dest.local fun _ => 0).bytes 0 ((F.drop 0).take 10)) s := by
    have hnumber := (magic_iff (firstBytes hlen (by decide)) (firstBytes hlen (by decide)) (by omega)).2 hmagic
    rw [hrun, if_neg]
    rintro (hshort | ⟨hnew, hold⟩)
    · omega
    · exact hnumber.elim hnew hold
  refine ⟨fun hnot => ?_, fun off hlen hmagic hsupported hfields => ?_, fun hlen hmagic hnone => ?_⟩
  · have hopen : RawOpen s.atStart F := hs.open_.atStart
    have hcond : ((min 10 F.length : Nat) : Int) ≠ 10 ∨
        ushortAt (store (Dest.local fun _ => 0).bytes 0 ((F.drop 0).take 10)) 0 ≠ 0x8B1F ∧
        ushortAt (store (Dest.local fun _ => 0).bytes 0 ((F.drop 0).take 10)) 0 ≠ 0x9E1F := by
      by_cases hlen : 10 ≤ F.length
      · refine .inr (not_or.1 fun hnumber => hnot ⟨hlen, ?_⟩)
        exact (magic_iff (firstBytes hlen (by decide)) (firstBytes hlen (by decide)) (by omega)).1 hnumber
      · omega
    refine ⟨s.atStart, ?_, hopen, rfl⟩
    rw [hrun, if_pos hcond, decide_eq_true hs.open_.errnum]
  · have hall : min 10 F.length = 10 := Nat.min_eq_left hlen
    rw [hall] at hs
    obtain ⟨bad, s', hheader, -, hend⟩ := badHeader_spec hp (firstBytes hlen (by decide)) (firstBytes hlen (by decide)) hs
    obtain ⟨-, hbad⟩ | ⟨rfl, -, off', hfields', hs'⟩ := hend
    · exact absurd ⟨off, hsupported, hfields⟩ hbad
    · obtain rfl := hfields.unique hfields'
      obtain ⟨s'', htrailer, hrecognized⟩ := gunzipTrailer_spec hp hlen hs'
      refine ⟨s'', ?_, hrecognized⟩
      rw [hten hlen hmagic, headed, hheader]
      exact htrailer
  · have hall : min 10 F.length = 10 := Nat.min_eq_left hlen
    rw [hall] at hs
    obtain ⟨bad, s', hheader, herr, hend⟩ := badHeader_spec hp (firstBytes hlen (by decide)) (firstBytes hlen (by decide)) hs
    obtain ⟨rfl, -⟩ | ⟨-, hsupported, off, hfields, -⟩ := hend
    · refine ⟨s'.badGzipHeader, ?_, if_pos herr⟩
      rw [hten hlen hmagic, headed, hheader]
      rfl
    · exact absurd ⟨off, hsupported, hfields⟩ hnone

/-- The passes that `bad_field` is given. -/
def State.passes (st : State σ ι) (len : Int) : Nat := if len < 0 then st.remaining else len.toNat + 1

/-- `bad_field` comes to an end, within its passes. -/
theorem badField_ends (hp : p.Healthy) (h : Standing F st₀ pos st) {len : Int} (hlen : len = -1 ∨ 0 ≤ len) :
    ∃ bad s, Skips p len 1 st bad s ∧ badField p (st.passes len) len 1 st = (bad, s) := by
  obtain rfl | hlen := hlen
  · have hpasses : (F.drop pos).length + 1 < st.passes (-1) := by
      have hmax := h.open_.filemax
      have hpos := h.filepos
      have hinside := h.inside
      rw [State.passes, if_pos (by decide), State.remaining, List.length_drop]
      omega
    obtain ⟨bad, s, hrun, hskips, -⟩ := badField_string hp (F.drop pos) 1 rfl hpasses (by decide) h
    exact ⟨bad, s, hskips, hrun⟩
  · obtain ⟨n, rfl⟩ := Int.eq_ofNat_of_zero_le hlen
    have hpasses : n < st.passes n := by
      rw [State.passes, if_neg (by omega)]
      exact Nat.lt_succ_self n
    obtain ⟨bad, s, hrun, hskips, -⟩ := badField_length hp n 1 hpasses h
    exact ⟨bad, s, hskips, hrun⟩

/-- **Recognition of headers**, for any file that is open at its beginning: which files are accepted, what the test leaves, and
that every field that is read over comes to an end. -/
theorem gunzipTestHeader_recognizes (hp : p.Healthy) (h : Standing F st 0 st) (hno : st.noDecompression = false) :
    ((∃ s, gunzipTestHeader p st = (true, s) ∧ s.compressedFile = true) ↔ 10 ≤ F.length ∧ Magic F ∧ Supported F ∧ ∃ off, FieldsEnd F off) ∧
      Tested p F st ∧
      ∀ s pos len, Standing F st pos s → len = -1 ∨ 0 ≤ len → ∃ bad s',
        Skips p len 1 s bad s' ∧ badField p (s.passes len) len 1 s = (bad, s') := by
  have htested := gunzipTestHeader_spec hp h hno
  refine ⟨⟨?_, ?_⟩, htested, fun s pos len hs hlen => badField_ends hp hs hlen⟩
  · rintro ⟨s, hrun, hcompressed⟩
    by_cases hmagic : 10 ≤ F.length ∧ Magic F
    · by_cases hheader : ∃ off, Supported F ∧ FieldsEnd F off
      · obtain ⟨off, hsupported, hfields⟩ := hheader
        exact ⟨hmagic.1, hmagic.2, hsupported, off, hfields⟩
      · obtain ⟨s', hrefused, -⟩ := htested.refused hmagic.1 hmagic.2 hheader
        exact absurd (congrArg Prod.fst (hrun.symm.trans hrefused)) Bool.false_ne_true.symm
    · obtain ⟨s', hplain, hopen, -⟩ := htested.plain hmagic
      obtain rfl : s = s' := congrArg Prod.snd (hrun.symm.trans hplain)
      exact absurd (hcompressed.symm.trans hopen.compressedFile) Bool.false_ne_true.symm
  · rintro ⟨hlen, hmagic, hsupported, off, hfields⟩
    obtain ⟨s, hrun, hrecognized⟩ := htested.accepted off hlen hmagic hsupported hfields
    exact ⟨s, hrun, hrecognized.compressedFile⟩

/-- A file that a driver has opened. -/
def openedFile (file : File) : State Unit Unit :=
  { State.atBoot () () 640 65535 with mounted := true, filemax := file.bytes.length, fsmax := maxint, file := file }

theorem openedFile_standing (file : File) : Standing file.bytes (openedFile file) 0 (openedFile file) where
  open_ := ⟨⟨rfl, rfl, rfl, ⟨fun hb => absurd hb Bool.false_ne_true, fun _ => ⟨rfl, rfl⟩⟩⟩, rfl⟩
  filepos := rfl
  inside := Nat.zero_le _
  settings := rfl
  reach := by
    have hfits := file.fits
    show (file.bytes.length : Int) ≤ maxint
    rw [maxint]
    omega

/-- A header with the name `f`. -/
def namedHeader : File := ⟨[0x1F, 0x8B, 8, 8, 0, 0, 0, 0, 0, 3, 0x66, 0], by decide⟩

theorem gunzipTestHeader_recognizes_named :
    (∃ s, gunzipTestHeader diskWithF.repaired (openedFile namedHeader) = (true, s) ∧ s.compressedFile = true) ∧
      Tested diskWithF.repaired namedHeader.bytes (openedFile namedHeader) := by
  obtain ⟨hiff, htested, -⟩ := gunzipTestHeader_recognizes diskWithF.repaired_healthy (openedFile_standing namedHeader) rfl
  refine ⟨hiff.2 ⟨by decide, .inl rfl, ⟨rfl, rfl⟩, 12, [], [0x66, 0], [], [], rfl, ?_, ?_, ?_, rfl⟩, htested⟩
  · rw [ExtraField, if_neg (by decide)]
  · rw [StringField, if_pos (by decide)]
    exact ⟨[0x66], by decide, rfl⟩
  · rw [StringField, if_neg (by decide)]

/-- The magic number and the method, and nothing behind them. -/
def cutHeader : File := ⟨[0x1F, 0x8B, 8], by decide⟩

/-- The header runs past the end of the file, and the file is plain. -/
theorem cutHeader_plain : Magic cutHeader.bytes ∧ cutHeader.bytes.length < 10 ∧
    ¬ ((gunzipTestHeader diskWithF.repaired (openedFile cutHeader)).1 = false ∧
      (gunzipTestHeader diskWithF.repaired (openedFile cutHeader)).2.errnum ≠ .none) := by
  refine ⟨.inl rfl, by decide, fun herror => ?_⟩
  have htrue : (gunzipTestHeader diskWithF.repaired (openedFile cutHeader)).1 = true := rfl
  exact Bool.false_ne_true (herror.1.symm.trans htrue)

end TrustedGrub.Disk
