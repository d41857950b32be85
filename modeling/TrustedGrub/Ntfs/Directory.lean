import Mathlib.Data.List.TakeWhile
import TrustedGrub.Lib.Memory
import TrustedGrub.Ntfs.IndexScan

/-!
# Which directories are searched as they are stored

A directory is an index root and the records that the bitmap has a bit for, each with entries one after the other up to a
last one that holds no name. A search goes through other entries than these where a bit is taken for that of another
record, or where a record seems to end before its last entry.
-/

namespace TrustedGrub.Ntfs
open Disk (GrubError)
open Fips180 (Byte)
open Loop (Before Body Flow Steady Yields run)
open Memory (segment segment_length)

/-! ## Directories -/

/-- Entries one after the other from `p` on, up to the one that is marked as the last. -/
inductive Chain (mem : Mem) (stop : Nat) : Nat → List Nat → Prop where
  | last {p : Nat} (flag : (mem (p + 0xC)).getLsbD 1 = true) (header : 0x10 ≤ entryLength mem p) (short : entryLength mem p ≤ 0x50)
      (fits : p + entryLength mem p ≤ stop) : Chain mem stop p []
  | entry {p : Nat} {ps : List Nat} (flag : (mem (p + 0xC)).getLsbD 1 = false)
    (name : 0x52 + 2 * (mem (p + 0x50)).toNat ≤ entryLength mem p)
      (fits : p + entryLength mem p ≤ stop) (rest : Chain mem stop (p + entryLength mem p) ps) : Chain mem stop p (p :: ps)

/-- A directory with an index allocation: its attributes, the size of its records, how many there are, and what they hold. -/
structure Index where
  blocksize : BitVec 16
  root : Attribute
  bitmap : Attribute
  alloc : Attribute
  size : Nat
  count : Nat
  /-- The records after their fix-ups. -/
  data : Nat → List Byte
  /-- The places of the entries of the root and of the records. -/
  entries : Option Nat → List Nat

def Index.directory (x : Index) : Directory := ⟨x.blocksize, some x.root, some x.bitmap, some x.alloc⟩

/-- The bit of a record. -/
def Index.InUse (x : Index) (r : Nat) : Prop := (inRecord x.bitmap.bytes (r / 8)).getLsbD (r % 8)

instance (x : Index) : DecidablePred x.InUse := fun _ => inferInstanceAs (Decidable (_ = true))

/-- The records that are in use, in order. -/
def Index.inUse (x : Index) : List Nat := (List.range x.count).filter x.InUse

/-- What the root holds, or a record. -/
def Index.mem (x : Index) : Option Nat → Mem
  | none => inRecord x.root.bytes
  | some r => inRecord (x.data r)

/-- Where the entries of a record begin. -/
def firstEntry (mem : Mem) : Nat := 0x18 + leValue mem 0x18 2

/-- Reads deliver the bytes of the attribute. -/
def Attribute.Readable (a : Attribute) : Prop := ∀ off len, off + len ≤ a.size → a.read off len = .ok (segment a.bytes off len)

/-- The number of an entry, and its name. -/
def entryAt (mem : Mem) (p : Nat) : Int × List Byte := (signedValue mem p 4, entryName mem p)

def Index.at (x : Index) (n : Option Nat) (p : Nat) : Int × List Byte := entryAt (x.mem n) p

/-- A directory in order. The numbers below 16 are those of the files of the system, which are in the root directory, where a
path begins. -/
structure Index.Stored (x : Index) (chkSfn : Int) : Prop where
  root : x.root.Readable
  bitmap : x.bitmap.Readable
  alloc : x.alloc.Readable
  header : 16 ≤ x.root.size
  recordSize : signedValue (inRecord x.root.bytes) 8 4 = x.size
  positive : 0 < x.size
  whole : x.alloc.size = x.count * x.size
  fixed : ∀ r < x.count, x.InUse r → fixupRecord (segment x.alloc.bytes (r * x.size) x.size) indx x.blocksize x.size = some (true, x.data r)
  rootChain : Chain (x.mem none) x.root.size 0x20 (x.entries none)
  chain : ∀ r < x.count, x.InUse r → Chain (x.mem (some r)) x.size (firstEntry (x.mem (some r))) (x.entries (some r))
  system : chkSfn = 0 → (∀ p ∈ x.entries none, 16 ≤ (x.at none p).1) ∧
    ∀ r < x.count, x.InUse r → ∀ p ∈ x.entries (some r), 16 ≤ (x.at (some r) p).1

/-- The nodes of the directory, with their entries. -/
def Index.nodes (x : Index) : List (Option Nat × List Nat) := (none :: x.inUse.map some).map fun n => (n, x.entries n)

/-- The numbers and names of all entries, in order. -/
def Index.all (x : Index) : List (Int × List Byte) := x.nodes.flatMap fun (n, ps) => ps.map (x.at n)

/-- Names that are equal but for the case. -/
def SameName (dirname : List Byte) (e : Int × List Byte) : Prop := dirname.map tolower = e.2.map tolower

instance (dirname : List Byte) : DecidablePred (SameName dirname) := fun _ => inferInstanceAs (Decidable (_ = _))

/-- The first entry with a name. -/
def Index.lookup (x : Index) (dirname : List Byte) : Option (Int × List Byte) := x.all.find? (SameName dirname)

/-- An entry that is not passed over for its number. -/
def Named (dirname : List Byte) (e : Int × List Byte) : Prop := 16 ≤ e.1 ∧ SameName dirname e

instance (dirname : List Byte) : DecidablePred (Named dirname) := fun _ => inferInstanceAs (Decidable (_ ∧ _))

/-- A search finds the first entry with the name; if there is none, it has gone through the root and the records that are in
use, in order and each of them once, and through all of their entries and nothing else. -/
def Index.Searches (x : Index) (chkSfn : Int) : Prop :=
  ∀ (dirname : List Byte) (b : Buffers), ∃ fuel h,
    match x.lookup dirname with
    | none => searchDir x.directory dirname chkSfn b fuel = some (.failed .fileNotFound, h) ∧ h.all = x.nodes
    | some e => searchDir x.directory dirname chkSfn b fuel = some (.found e.1, h)

/-- An entry that seems to be the last one. -/
def Cut (mem : Mem) (indexEnd : Int) (p : Nat) : Prop := indexEnd ≤ p + entryLength mem p ∨ (mem (p + 0x12)).getLsbD 1

instance (mem : Mem) (indexEnd : Int) (p : Nat) : Decidable (Cut mem indexEnd p) := inferInstanceAs (Decidable (_ ∨ _))

section Entries
variable {mem mem' : Mem} {stop p q : Nat} {ps : List Nat}

theorem leValue_congr {n : Nat} (h : ∀ i, p ≤ i → i < p + n → mem i = mem' i) : leValue mem p n = leValue mem' p n := by
  induction n generalizing p with
  | zero => rfl
  | succ n ih =>
    rw [leValue, leValue, h p (Nat.le_refl p) (by omega), ih fun i hi hlt => h i (by omega) (by omega)]

/-- The first entry of a chain, or the one that is marked as the last, is in the record. -/
theorem Chain.header (h : Chain mem stop p ps) : p + 0x10 ≤ stop := by
  cases h with
  | last _ header _ fits => omega
  | entry _ name fits _ => omega

theorem Chain.mem_fits (h : Chain mem stop p ps) (hq : q ∈ ps) :
    0x52 + 2 * (mem (q + 0x50)).toNat ≤ entryLength mem q ∧ q + entryLength mem q ≤ stop := by
  induction h with
  | last => cases hq
  | entry _ name fits _ ih =>
    obtain rfl | hq := List.mem_cons.1 hq
    · exact ⟨name, fits⟩
    · exact ih hq

theorem entryLength_congr (h : ∀ i < stop, mem i = mem' i) (hp : p + 0x10 ≤ stop) : entryLength mem p = entryLength mem' p :=
  leValue_congr fun i _ hi => h i (by omega)

theorem signedValue_congr (h : ∀ i < stop, mem i = mem' i) (hp : p + 4 ≤ stop) : signedValue mem p 4 = signedValue mem' p 4 := by
  have hvalue : leValue mem p 4 = leValue mem' p 4 := leValue_congr fun i _ hi => h i (by omega)
  rw [signedValue, signedValue, hvalue]

theorem entryName_congr (h : ∀ i < stop, mem i = mem' i) (hp : p + 0x52 + 2 * (mem (p + 0x50)).toNat ≤ stop) :
    entryName mem p = entryName mem' p := by
  rw [entryName, entryName, ← h (p + 0x50) (by omega)]
  congr 1
  apply List.map_congr_left
  intro i hi
  have hlt := List.mem_range.1 hi
  rw [leValue_congr fun j _ hj => h j (by omega)]

theorem cut_congr {e : Int} (h : ∀ i < stop, mem i = mem' i) (hp : p + 0x13 ≤ stop) : Cut mem e p ↔ Cut mem' e p := by
  rw [Cut, Cut, entryLength_congr h (by omega), h _ (by omega)]

/-- An entry ends the search of a record where it is cut. -/
theorem ends_iff_cut {c : Cursor} (hlen : 0x52 ≤ entryLength c.indexData p) : c.Ends p ↔ Cut c.indexData c.indexEnd p := by
  rw [Cursor.Ends, Cut]
  constructor
  · rintro (hshort | hbehind | hends | hbit)
    · omega
    · exact .inl (by omega)
    · exact .inl hends
    · exact .inr hbit
  · rintro (hends | hbit)
    · exact .inr (.inr (.inl hends))
    · exact .inr (.inr (.inr hbit))

theorem ends_of_last {c : Cursor} (hlen : entryLength c.indexData p ≤ 0x50) : c.Ends p := .inl (by omega)

end Entries

/-! ## Names -/

section Names
variable {s t : List Byte}

theorem nsubstring_eq_zero : nsubstring s t = 0 ↔ s.map tolower = t.map tolower := by
  induction s generalizing t with
  | nil => cases t <;> simp [nsubstring]
  | cons a s ih =>
    cases t with
    | nil => simp [nsubstring]
    | cons b t =>
      rw [nsubstring, List.map_cons, List.map_cons, List.cons.injEq]
      by_cases hab : tolower a = tolower b
      · rw [if_pos hab, ih]
        simp [hab]
      · rw [if_neg hab]
        simp [hab]

theorem entryName_length (mem : Mem) (p : Nat) : (entryName mem p).length ≤ 255 := by
  have hbyte := (mem (p + 0x50)).isLt
  rw [entryName]
  refine Nat.le_trans (List.takeWhile_prefix _).length_le ?_
  rw [List.length_map, List.length_range]
  omega

/-- A name that no entry has. -/
def longName : List Byte := List.replicate 256 0x61

theorem not_sameName_long (mem : Mem) (p : Nat) : ¬ SameName longName (entryAt mem p) := by
  intro hname
  have hlen := congrArg List.length hname
  rw [List.length_map, List.length_map, longName, List.length_replicate] at hlen
  have hle : 256 ≤ 255 := Nat.le_trans (Nat.le_of_eq hlen) (entryName_length mem p)
  omega

theorem not_named_long (mem : Mem) (p : Nat) : ¬ Named longName (entryAt mem p) := fun hnamed => not_sameName_long mem p hnamed.2

end Names

/-! ## Records -/

section Records
variable {size : Int} {attrSize count fuel fuel' r : Nat} {bits : Mem}

/-- The records from one on whose bits are tested and found set. -/
def testedFrom (count : Nat) (bits : Mem) (r : Nat) : List Nat := (List.range' r (count - r)).filter fun r => tested bits r

theorem testedFrom_all : testedFrom count bits 0 = (List.range count).filter fun r => tested bits r := by
  rw [testedFrom, Nat.sub_zero, List.range_eq_range']

theorem testedFrom_end (h : count ≤ r) : testedFrom count bits r = [] := by
  rw [testedFrom, Nat.sub_eq_zero_of_le h]
  rfl

theorem testedFrom_succ (h : r < count) :
    testedFrom count bits r = if tested bits r then r :: testedFrom count bits (r + 1) else testedFrom count bits (r + 1) := by
  obtain ⟨k, hk⟩ : ∃ k, count - r = k + 1 := ⟨count - r - 1, by omega⟩
  rw [testedFrom, testedFrom, hk, show count - (r + 1) = k by omega, List.range'_succ, List.filter_cons]

theorem nextRecord_eq (hsize : 0 < size) (hwhole : (attrSize : Int) = count * size) (hfuel : count - r < fuel) :
    nextRecord size attrSize bits fuel r = some (testedFrom count bits r).head? := by
  induction fuel generalizing r with
  | zero => exact absurd hfuel (Nat.not_lt_zero _)
  | succ fuel ih =>
    rw [nextRecord, hwhole]
    by_cases hr : r < count
    · have hless : (r : Int) * size < count * size := Int.mul_lt_mul_of_pos_right (by omega) hsize
      rw [if_pos hless, testedFrom_succ hr]
      by_cases htested : tested bits r
      · rw [if_pos htested, if_pos htested]
        rfl
      · rw [if_neg htested, if_neg htested]
        exact ih (by omega)
    · have hmore : (count : Int) * size ≤ r * size := Int.mul_le_mul_of_nonneg_right (by omega) (Int.le_of_lt hsize)
      rw [if_neg (Int.not_lt.2 hmore), testedFrom_end (Nat.le_of_not_lt hr)]
      rfl

/-- More fuel does not change the next record. -/
theorem nextRecord_steady (h : fuel ≤ fuel') : Before (nextRecord size attrSize bits fuel r) (nextRecord size attrSize bits fuel' r) := by
  intro next hnext
  induction fuel generalizing fuel' r with
  | zero => cases hnext
  | succ fuel ih =>
    obtain ⟨fuel', rfl⟩ := Nat.exists_eq_add_of_le' (Nat.le_trans (Nat.le_add_left 1 fuel) h)
    rw [nextRecord] at hnext ⊢
    split
    next hless =>
      rw [if_pos hless] at hnext
      split
      next htested =>
        rw [if_pos htested] at hnext
        exact hnext
      next htested =>
        rw [if_neg htested] at hnext
        exact ih (Nat.succ_le_succ_iff.1 h) hnext
    next hless =>
      rw [if_neg hless] at hnext
      exact hnext

theorem scanPass_steady {blocksize : BitVec 16} {alloc : Attribute} {dirname : List Byte} :
    Steady (scanPass blocksize alloc size bits dirname) := by
  intro fuel fuel' hle c h flow hflow
  simp only [scanPass] at hflow ⊢
  split
  next hends =>
    rw [if_pos hends] at hflow
    cases hrecord : c.recordOffset with
    | none =>
      rw [hrecord] at hflow
      exact hflow
    | some r =>
      rw [hrecord] at hflow
      simp only at hflow ⊢
      cases hread : alloc.read (r * size).toNat size.toNat with
      | error errnum =>
        rw [hread] at hflow
        exact hflow
      | ok bytes =>
        rw [hread] at hflow
        simp only at hflow ⊢
        generalize fixupRecord ((List.range size.toNat).map (overlay bytes c.indexData)) indx blocksize size = fixups at hflow ⊢
        match fixups with
        | none => exact hflow
        | some (false, _) => exact hflow
        | some (true, fixed) =>
          simp only at hflow ⊢
          cases hnext : nextRecord size alloc.size bits fuel (r + 1) with
          | none =>
            rw [hnext] at hflow
            cases hflow
          | some next =>
            rw [hnext] at hflow
            rw [nextRecord_steady hle next hnext]
            exact hflow
  next hends =>
    rw [if_neg hends] at hflow
    exact hflow

end Records

/-! ## From entry to entry -/

section Walk
variable {blocksize : BitVec 16} {alloc : Attribute} {size : Int} {bits mem : Mem} {dirname : List Byte} {stop p fuel : Nat}
    {good rest : List Nat}
  {c c' c'' : Cursor} {h h' h'' : History}

/-- A search comes to the same from both states. -/
def Follows (body : Body Cursor History Outcome) (c : Cursor) (h : History) (c' : Cursor) (h' : History) : Prop :=
  ∀ o k, Yields body c h o k ↔ Yields body c' h' o k

theorem Follows.trans {body : Body Cursor History Outcome} (hfirst : Follows body c h c' h') (hrest : Follows body c' h' c'' h'') :
    Follows body c h c'' h'' :=
  fun o k => (hfirst o k).trans (hrest o k)

theorem follows_of_pass (hpass : scanPass blocksize alloc size bits dirname fuel c h = some (.next c' h')) :
    Follows (scanPass blocksize alloc size bits dirname) c h c' h' :=
  fun _ _ => ⟨Yields.rest scanPass_steady hpass, Yields.next scanPass_steady hpass⟩

/-- An entry that has another name is passed over. -/
theorem examine_other (hagree : ∀ i < stop, c.indexData i = mem i) (hfits : p + 0x52 + 2 * (mem (p + 0x50)).toNat ≤ stop)
    (hno : ¬ Named dirname (entryAt mem p)) (hsystem : c.chkSfn ≠ 0 ∨ 16 ≤ (entryAt mem p).1) :
    ∃ k, k ≠ 0 ∧ examine dirname p c h = .next { c with chkSfn := k } (h.see p) := by
  have hino : signedValue c.indexData p 4 = (entryAt mem p).1 := signedValue_congr hagree (by omega)
  have hname : entryName c.indexData p = (entryAt mem p).2 := entryName_congr hagree (by rw [hagree (p + 0x50) (by omega)]; exact hfits)
  simp only [examine, hino, hname]
  by_cases hlow : (entryAt mem p).1 < 16
  · have hchk := hsystem.resolve_right (Int.not_le.2 hlow)
    rw [if_pos hlow, if_pos hchk]
    exact ⟨c.chkSfn, hchk, rfl⟩
  · have hne : nsubstring dirname (entryAt mem p).2 ≠ 0 := fun hzero => hno ⟨Int.not_lt.1 hlow, nsubstring_eq_zero.1 hzero⟩
    rw [if_neg hlow, if_pos hne]
    exact ⟨_, hne, rfl⟩

/-- A pass that comes to an entry takes it for one, unless it is cut. -/
theorem scanPass_entry (hagree : ∀ i < stop, c.indexData i = mem i) (hentry : c.indexEntry = p)
    (hfits : 0x52 + 2 * (mem (p + 0x50)).toNat ≤ entryLength mem p ∧ p + entryLength mem p ≤ stop) (hcut : ¬ Cut mem c.indexEnd p) :
    scanPass blocksize alloc size bits dirname fuel c h = some (examine dirname p { c with indexEntry := p + entryLength mem p } h) := by
  have hlength : entryLength c.indexData p = entryLength mem p := entryLength_congr hagree (by omega)
  have hends : ¬ c.Ends c.indexEntry := by
    rw [hentry, ends_iff_cut (by omega), cut_congr hagree (by omega)]
    exact hcut
  simp only [scanPass]
  rw [if_neg hends, hentry, hlength]

/-- Entries that are not cut and have other names are passed over one after the other. -/
theorem follows_chain (blocksize : BitVec 16) (alloc : Attribute) (size : Int) (bits : Mem) (h : History)
    (hchain : Chain mem stop p (good ++ rest)) (hagree : ∀ i < stop, c.indexData i = mem i) (hentry : c.indexEntry = p)
    (hcut : ∀ q ∈ good, ¬ Cut mem c.indexEnd q) (hno : ∀ q ∈ good, ¬ Named dirname (entryAt mem q))
    (hsystem : c.chkSfn ≠ 0 ∨ ∀ q ∈ good, 16 ≤ (entryAt mem q).1) :
    ∃ p' k, Chain mem stop p' rest ∧ (c.chkSfn ≠ 0 → k ≠ 0) ∧
      Follows (scanPass blocksize alloc size bits dirname) c h { c with indexEntry := p', chkSfn := k }
        { h with entries := h.entries ++ good } := by
  induction good generalizing p c h with
  | nil =>
    refine ⟨p, c.chkSfn, hchain, id, ?_⟩
    rw [List.append_nil, ← hentry]
    exact fun _ _ => Iff.rfl
  | cons q good ih =>
    have hfits := hchain.mem_fits (List.mem_cons_self)
    cases hchain with
    | entry flag name fits tail =>
      have hpass : scanPass blocksize alloc size bits dirname 0 c h = some (examine dirname _ { c with indexEntry := _ } h) :=
        scanPass_entry hagree hentry hfits (hcut _ List.mem_cons_self)
      obtain ⟨k, hk, hother⟩ :=
        examine_other (c := { c with indexEntry := q + entryLength mem q }) (h := h) hagree (by omega) (hno _ List.mem_cons_self)
        (hsystem.imp_right fun hall => hall _ List.mem_cons_self)
      rw [hother] at hpass
      obtain ⟨p', k', hrest, hk', hfollows⟩ :=
        ih (c := { c with indexEntry := q + entryLength mem q, chkSfn := k }) (h.see q) tail hagree rfl
        (fun q hq => hcut q (List.mem_cons_of_mem _ hq)) (fun q hq => hno q (List.mem_cons_of_mem _ hq)) (.inl hk)
      refine ⟨p', k', hrest, fun _ => hk' hk, ?_⟩
      have hentries : h.entries ++ q :: good = (h.see q).entries ++ good := by
        rw [History.see, List.append_assoc]
        rfl
      rw [hentries]
      exact (follows_of_pass hpass).trans hfollows

end Walk

/-! ## From record to record -/

section Load
variable {blocksize : BitVec 16} {fixup magic n r : Nat} {start offset size : Int} {record record' : List Byte} {ok : Bool}

theorem fixupLoop_length (h : fixupLoop blocksize fixup n start offset record = some (ok, record')) : record'.length = record.length := by
  induction n generalizing start offset record with
  | zero =>
    obtain ⟨-, rfl⟩ := Prod.mk.inj (Option.some.inj h)
    rfl
  | succ n ih =>
    rw [fixupLoop] at h
    obtain ⟨last, -, h⟩ := Option.bind_eq_some_iff.1 h
    split at h
    · obtain ⟨-, rfl⟩ := Prod.mk.inj (Option.some.inj h)
      rfl
    · obtain ⟨value, -, h⟩ := Option.bind_eq_some_iff.1 h
      rw [ih h, length_setHalf]

theorem fixupRecord_length (h : fixupRecord record magic blocksize size = some (ok, record')) : record'.length = record.length := by
  rw [fixupRecord] at h
  obtain ⟨low, -, h⟩ := Option.bind_eq_some_iff.1 h
  obtain ⟨high, -, h⟩ := Option.bind_eq_some_iff.1 h
  split at h
  · obtain ⟨-, rfl⟩ := Prod.mk.inj (Option.some.inj h)
    rfl
  · obtain ⟨at', -, h⟩ := Option.bind_eq_some_iff.1 h
    obtain ⟨updates, -, h⟩ := Option.bind_eq_some_iff.1 h
    simp only at h
    split at h
    · obtain ⟨-, rfl⟩ := Prod.mk.inj (Option.some.inj h)
      rfl
    · obtain ⟨fixup, -, h⟩ := Option.bind_eq_some_iff.1 h
      exact fixupLoop_length h

theorem overlay_agrees (bytes : List Byte) (buf : Mem) {i : Nat} (hi : i < bytes.length) : overlay bytes buf i = inRecord bytes i := by
  rw [overlay, inRecord, List.getD_eq_getElem _ _ hi, List.getD_eq_getElem _ _ hi]

theorem map_overlay (bytes : List Byte) (buf : Mem) : (List.range bytes.length).map (overlay bytes buf) = bytes := by
  apply List.ext_getElem
  · rw [List.length_map, List.length_range]
  · intro i hi _
    rw [List.getElem_map, List.getElem_range, overlay, List.getD_eq_getElem]

theorem Attribute.readInto_agrees {a : Attribute} (h : a.Readable) {len : Nat} (hlen : len ≤ a.size) (buf : Mem) {i : Nat} (hi : i < len) :
    a.readInto len buf i = inRecord a.bytes i := by
  have hread := h 0 len (by omega)
  rw [Attribute.size] at hlen
  rw [Attribute.readInto, hread]
  show overlay (segment a.bytes 0 len) buf i = _
  rw [overlay_agrees _ _ (by rw [segment_length (by omega)]; exact hi), inRecord, inRecord, Memory.segment, List.drop_zero,
    List.getD_eq_getElem?_getD,
    List.getElem?_take_of_lt hi, List.getD_eq_getElem?_getD]

end Load

section Sequence
variable {x : Index} {chkSfn : Int} {bits : Mem} {dirname : List Byte} {fuel r r₀ : Nat} {c : Cursor} {h k : History} {o : Outcome}

/-- A pass of the search of the directory. -/
def Index.pass (x : Index) (bits : Mem) (dirname : List Byte) : Body Cursor History Outcome :=
  scanPass x.blocksize x.alloc x.size bits dirname

theorem testedFrom_head {count : Nat} (hhead : (testedFrom count bits r₀).head? = some r) :
    r < count ∧ tested bits r ∧ testedFrom count bits r₀ = r :: testedFrom count bits (r + 1) := by
  generalize hn : count - r₀ = n
  induction n generalizing r₀ with
  | zero =>
    rw [testedFrom_end (by omega)] at hhead
    cases hhead
  | succ n ih =>
    rw [testedFrom_succ (by omega)] at hhead ⊢
    split
    next htested =>
      rw [if_pos htested] at hhead
      obtain rfl : r₀ = r := Option.some.inj hhead
      exact ⟨by omega, htested, rfl⟩
    next htested =>
      rw [if_neg htested] at hhead
      exact ih hhead (by omega)

theorem Index.Stored.nextRecord (hs : x.Stored chkSfn) (hfuel : x.count - r < fuel) :
    Ntfs.nextRecord x.size x.alloc.size bits fuel r = some (testedFrom x.count bits r).head? := by
  have hpos := hs.positive
  apply nextRecord_eq (by omega) _ hfuel
  rw [hs.whole, Int.natCast_mul]

theorem Index.Stored.nextRecord_some {next : Option Nat} (hs : x.Stored chkSfn)
    (hnext : Ntfs.nextRecord x.size x.alloc.size bits fuel r = some next) :
    next = (testedFrom x.count bits r).head? := by
  have hmore := nextRecord_steady (Nat.le_max_left fuel (x.count + 1)) next hnext
  rw [hs.nextRecord (by omega)] at hmore
  exact (Option.some.inj hmore).symm

theorem Index.Stored.read (hs : x.Stored chkSfn) (hr : r < x.count) :
    x.alloc.read ((r : Int) * x.size).toNat ((x.size : Int)).toNat = .ok (segment x.alloc.bytes (r * x.size) x.size) ∧
    (segment x.alloc.bytes (r * x.size) x.size).length = x.size := by
  have hfits : r * x.size + x.size ≤ x.alloc.size := by
    rw [hs.whole, ← Nat.succ_mul]
    exact Nat.mul_le_mul_right _ hr
  rw [← Int.natCast_mul, Int.toNat_natCast, Int.toNat_natCast]
  exact ⟨hs.alloc _ _ hfits, segment_length hfits⟩

/-- Behind the last entry of a record, the next one is gone to. -/
theorem Index.Stored.load (hs : x.Stored chkSfn) (hr : r < x.count) (huse : x.InUse r) (hends : c.Ends c.indexEntry)
    (hrecord : c.recordOffset = some r)
    (dirname : List Byte) (bits : Mem) (h : History) :
    ∃ fuel m, x.pass bits dirname fuel c h = some (examine dirname (firstEntry (x.mem (some r)))
        ⟨m, firstEntry (x.mem (some r)) + entryLength (x.mem (some r)) (firstEntry (x.mem (some r))), x.size - 0x52,
          (testedFrom x.count bits (r + 1)).head?, c.chkSfn⟩ (h.enter r)) ∧ ∀ i < x.size, m i = x.mem (some r) i := by
  obtain ⟨hread, hlength⟩ := hs.read hr
  have hfixed := hs.fixed r hr huse
  have hchain := (hs.chain r hr huse).header
  have hfirst : 0x18 ≤ firstEntry (x.mem (some r)) := Nat.le_add_right _ _
  have hdata : (x.data r).length = x.size := (fixupRecord_length hfixed).trans hlength
  have hmap : (List.range x.size).map (overlay (segment x.alloc.bytes (r * x.size) x.size) c.indexData) =
    segment x.alloc.bytes (r * x.size) x.size := by
    have hmap := map_overlay (segment x.alloc.bytes (r * x.size) x.size) c.indexData
    rw [hlength] at hmap
    exact hmap
  have hagree : ∀ i < x.size, overlay (x.data r) (overlay (segment x.alloc.bytes (r * x.size) x.size) c.indexData) i = x.mem (some r) i :=
    fun i hi => overlay_agrees _ _ (by omega)
  generalize hm : overlay (x.data r) (overlay (segment x.alloc.bytes (r * x.size) x.size) c.indexData) = m at hagree
  have hentry : 0x18 + leValue m 0x18 2 = firstEntry (x.mem (some r)) := by
    rw [firstEntry, leValue_congr fun i _ hi => hagree i (by omega)]
  refine ⟨x.count + 1, m, ?_, hagree⟩
  simp only [Index.pass, scanPass]
  rw [if_pos hends, hrecord]
  simp only [hread]
  rw [Int.toNat_natCast, hmap, hfixed]
  simp only [hm, hentry]
  rw [hs.nextRecord (by omega), entryLength_congr hagree hchain]

/-- Where the root or a record has ended and no record is left, so has the search. -/
theorem pass_end (hends : c.Ends c.indexEntry) (hrecord : c.recordOffset = none) :
    x.pass bits dirname fuel c h = some (.done (.failed .fileNotFound) h) := by
  simp only [Index.pass, scanPass]
  rw [if_pos hends, hrecord]

/-- The entries of the records of a list. -/
def Index.listed (x : Index) (rs : List Nat) : List (Int × List Byte) := rs.flatMap fun r => (x.entries (some r)).map (x.at (some r))

/-- What examining an entry comes to. -/
theorem examine_cases (dirname : List Byte) (p : Nat) (c : Cursor) (h : History) :
    (∃ k, examine dirname p c h = .next { c with chkSfn := k } (h.see p)) ∨ ∃ ino,
      examine dirname p c h = .done (.found ino) (h.see p) := by
  simp only [examine]
  split
  · split
    · exact .inl ⟨c.chkSfn, rfl⟩
    · exact .inr ⟨_, rfl⟩
  · split
    · exact .inl ⟨_, rfl⟩
    · exact .inr ⟨_, rfl⟩

/-- What a pass comes to: an end, an entry of the same record, or the first one of the next record. -/
theorem Index.Stored.pass_cases {flow : Flow Cursor History Outcome} (hs : x.Stored chkSfn)
    (hrecord : c.recordOffset = (testedFrom x.count bits r₀).head?)
    (hpass : x.pass bits dirname fuel c h = some flow) :
    (∃ o, flow = .done o h ∧ (o = .failed .fileNotFound → c.recordOffset = none)) ∨
    (∃ p c', ¬ c.Ends c.indexEntry ∧ flow = examine dirname p c' h ∧ c'.recordOffset = c.recordOffset) ∨
    ∃ r p c', c.recordOffset = some r ∧ flow = examine dirname p c' (h.enter r) ∧
      c'.recordOffset = (testedFrom x.count bits (r + 1)).head? := by
  simp only [Index.pass, scanPass] at hpass
  split at hpass
  next hends =>
    cases hnext : c.recordOffset with
    | none =>
      rw [hnext] at hpass
      exact .inl ⟨_, (Option.some.inj hpass).symm, fun _ => rfl⟩
    | some r =>
      obtain ⟨hr, -, -⟩ := testedFrom_head (hrecord.symm.trans hnext)
      rw [hnext] at hpass
      simp only [(hs.read hr).1] at hpass
      generalize fixupRecord _ indx x.blocksize x.size = fixups at hpass
      match fixups with
      | none => cases hpass
      | some (false, _) =>
        refine .inl ⟨_, (Option.some.inj hpass).symm, fun hfailed => ?_⟩
        cases hfailed
      | some (true, fixed) =>
        simp only at hpass
        cases hafter : Ntfs.nextRecord x.size x.alloc.size bits fuel (r + 1) with
        | none =>
          rw [hafter] at hpass
          cases hpass
        | some next =>
          rw [hafter] at hpass
          exact .inr (.inr ⟨r, _, _, rfl, (Option.some.inj hpass).symm, hs.nextRecord_some hafter⟩)
  next hends => exact .inr (.inl ⟨_, _, hends, (Option.some.inj hpass).symm, rfl⟩)

/-- What has been gone through when the search ends without the name: to what had been before, only entries have been added, and
one by one the records that were left. -/
theorem Index.Stored.run_adds (hs : x.Stored chkSfn) (hrecord : c.recordOffset = (testedFrom x.count bits r₀).head?)
    (hrun : run (x.pass bits dirname) fuel c h = some (.failed .fileNotFound, k)) :
    ∃ more others, k.all = h.left ++ (h.node, h.entries ++ more) :: others ∧
      others.map Prod.fst = (testedFrom x.count bits r₀).map some := by
  induction fuel generalizing c h r₀ with
  | zero => cases hrun
  | succ fuel ih =>
    rw [run] at hrun
    cases hpass : x.pass bits dirname fuel c h with
    | none =>
      rw [hpass] at hrun
      cases hrun
    | some flow =>
      rw [hpass] at hrun
      obtain ⟨o, rfl, hlast⟩ | ⟨p, c', -, rfl, hsame⟩ | ⟨r, p, c', hnext, rfl, hafter⟩ := hs.pass_cases hrecord hpass
      · obtain ⟨rfl, rfl⟩ := Prod.mk.inj (Option.some.inj hrun)
        have hnil : testedFrom x.count bits r₀ = [] := by
          rw [← List.head?_eq_none_iff, ← hrecord]
          exact hlast rfl
        refine ⟨[], [], ?_, by rw [hnil]; rfl⟩
        rw [History.all, List.append_nil]
      · obtain ⟨j, hother⟩ | ⟨ino, hfound⟩ := examine_cases dirname p c' h
        · rw [hother] at hrun
          obtain ⟨more, others, hall, hothers⟩ := ih (c := { c' with chkSfn := j }) (h := h.see p) (hsame.trans hrecord) hrun
          refine ⟨p :: more, others, ?_, hothers⟩
          rw [hall]
          simp [History.see]
        · rw [hfound] at hrun
          cases hrun
      · obtain ⟨-, -, htail⟩ := testedFrom_head (hrecord.symm.trans hnext)
        obtain ⟨j, hother⟩ | ⟨ino, hfound⟩ := examine_cases dirname p c' (h.enter r)
        · rw [hother] at hrun
          obtain ⟨more, others, hall, hothers⟩ := ih (c := { c' with chkSfn := j }) (h := (h.enter r).see p) hafter hrun
          refine ⟨[], (some r, p :: more) :: others, ?_, ?_⟩
          · rw [hall]
            simp [History.see, History.enter, History.all]
          · rw [htail, List.map_cons, List.map_cons, hothers]
        · rw [hfound] at hrun
          cases hrun

/-- Where an entry ends the search of its record, nothing is added for this one. -/
theorem Index.Stored.run_ends (hs : x.Stored chkSfn) (hends : c.Ends c.indexEntry)
    (hrecord : c.recordOffset = (testedFrom x.count bits r₀).head?)
    (hyields : Yields (x.pass bits dirname) c h (.failed .fileNotFound) k) : ∃ others, k.all = h.all ++ others := by
  obtain ⟨fuel, hrun⟩ := hyields
  cases fuel with
  | zero => cases hrun
  | succ fuel =>
    rw [run] at hrun
    cases hnext : c.recordOffset with
    | none =>
      rw [pass_end hends hnext] at hrun
      obtain ⟨-, rfl⟩ := Prod.mk.inj (Option.some.inj hrun)
      exact ⟨[], (List.append_nil _).symm⟩
    | some r =>
      cases hpass : x.pass bits dirname fuel c h with
      | none =>
        rw [hpass] at hrun
        cases hrun
      | some flow =>
        rw [hpass] at hrun
        obtain ⟨o, rfl, hlast⟩ | ⟨p, c', hgoes, -, -⟩ | ⟨r', p, c', -, rfl, hafter⟩ := hs.pass_cases hrecord hpass
        · obtain ⟨rfl, rfl⟩ := Prod.mk.inj (Option.some.inj hrun)
          exact ⟨[], (List.append_nil _).symm⟩
        · exact absurd hends hgoes
        · obtain ⟨j, hother⟩ | ⟨ino, hfound⟩ := examine_cases dirname p c' (h.enter r')
          · rw [hother] at hrun
            obtain ⟨more, others, hall, -⟩ := hs.run_adds (c := { c' with chkSfn := j }) (h := (h.enter r').see p) hafter hrun
            exact ⟨_, hall⟩
          · rw [hfound] at hrun
            cases hrun

/-- A search that has gone through all entries of a chain has come to no cut one. -/
theorem Index.Stored.chain_complete {r : Nat} {mem : Mem} {stop p : Nat} {ps : List Nat} {others : List (Option Nat × List Nat)}
    (hs : x.Stored chkSfn)
    (hchain : Chain mem stop p ps) (hagree : ∀ i < stop, c.indexData i = mem i) (hentry : c.indexEntry = p)
    (hno : ∀ q ∈ ps, ¬ Named dirname (entryAt mem q))
    (hsystem : c.chkSfn ≠ 0 ∨ ∀ q ∈ ps, 16 ≤ (entryAt mem q).1) (hrecord : c.recordOffset = (testedFrom x.count bits r).head?)
    (hyields : Yields (x.pass bits dirname) c h (.failed .fileNotFound) k) (hall : k.all = h.left ++ (h.node, h.entries ++ ps) :: others) :
    (∀ q ∈ ps, ¬ Cut mem c.indexEnd q) ∧ ∃ c', c'.Ends c'.indexEntry ∧ c'.recordOffset = c.recordOffset ∧ (c.chkSfn ≠ 0 → c'.chkSfn ≠ 0) ∧
      Yields (x.pass bits dirname) c' { h with entries := h.entries ++ ps } (.failed .fileNotFound) k := by
  -- the entries up to the first one that is cut
  obtain ⟨good, rest, rfl, hgood, hrest⟩ :
      ∃ good rest, ps = good ++ rest ∧ (∀ q ∈ good, ¬ Cut mem c.indexEnd q) ∧ ∀ q ∈ rest.head?, Cut mem c.indexEnd q := by
    refine ⟨_, _, (List.takeWhile_append_dropWhile (p := fun q => !decide (Cut mem c.indexEnd q))).symm, fun q hq => ?_, fun q hq => ?_⟩
    · simpa using List.mem_takeWhile_imp hq
    · have hfirst := List.head?_dropWhile_not (p := fun q => !decide (Cut mem c.indexEnd q)) (l := ps)
      rw [Option.mem_def.1 hq] at hfirst
      simpa using hfirst
  obtain ⟨p', j, hlast, hj, hfollows⟩ := follows_chain x.blocksize x.alloc x.size bits h hchain hagree hentry hgood
    (fun q hq => hno q (List.mem_append_left _ hq)) (hsystem.imp_right fun hhigh q hq => hhigh q (List.mem_append_left _ hq))
  have hyields' := (hfollows _ _).1 hyields
  have hends : Cursor.Ends { c with indexEntry := p', chkSfn := j } p' := by
    have hheader := hlast.header
    have hlength : entryLength c.indexData p' = entryLength mem p' := entryLength_congr hagree hheader
    cases hlast with
    | last _ _ short _ =>
      apply ends_of_last
      show entryLength c.indexData p' ≤ 0x50
      omega
    | entry _ name fits _ =>
      have hlong : 0x52 ≤ entryLength c.indexData p' := by omega
      refine (ends_iff_cut (c := { c with indexEntry := p', chkSfn := j }) hlong).2 ?_
      exact (cut_congr hagree (by omega)).2 (hrest _ rfl)
  obtain ⟨others', hall'⟩ := hs.run_ends (c := { c with indexEntry := p', chkSfn := j }) hends hrecord hyields'
  have hnil : rest = [] := by
    rw [hall, History.all, List.append_assoc, List.append_cancel_left_eq] at hall'
    have hnode := (List.cons.inj hall').1
    have hentries := congrArg (fun n => n.2.length) hnode
    simp at hentries
    exact hentries
  subst hnil
  rw [List.append_nil]
  exact ⟨hgood, _, hends, rfl, hj, hyields'⟩

/-- A search that has gone through the records that were left, and all of their entries, has found each of them complete. -/
theorem Index.Stored.complete_of_run (hs : x.Stored chkSfn) (hbits : ∀ r < x.count, tested bits r → x.InUse r) (hends : c.Ends c.indexEntry)
    (hrecord : c.recordOffset = (testedFrom x.count bits r₀).head?) (hno : ∀ n p, ¬ Named dirname (x.at n p))
    (hsystem : c.chkSfn ≠ 0 ∨ chkSfn = 0)
    (hyields : Yields (x.pass bits dirname) c h (.failed .fileNotFound) k)
    (hall : k.all = h.all ++ (testedFrom x.count bits r₀).map fun r => (some r, x.entries (some r))) :
    ∀ r ∈ testedFrom x.count bits r₀, x.entries (some r) ≠ [] ∧ ∀ p ∈ (x.entries (some r)).tail,
      ¬ Cut (x.mem (some r)) (x.size - 0x52) p := by
  generalize hrs : testedFrom x.count bits r₀ = rs at hrecord hall ⊢
  induction rs generalizing r₀ c h with
  | nil => exact fun r hr => absurd hr List.not_mem_nil
  | cons r rs ih =>
    obtain ⟨hr, htested, hrest⟩ := testedFrom_head (by rw [hrs]; rfl : (testedFrom x.count bits r₀).head? = some r)
    obtain ⟨-, rfl⟩ := List.cons.inj (hrs.symm.trans hrest)
    have huse := hbits r hr htested
    obtain ⟨fuel, m, hpass, hagree⟩ := hs.load hr huse hends hrecord dirname bits h
    have hchain := hs.chain r hr huse
    have hhigh : c.chkSfn ≠ 0 ∨ ∀ p ∈ x.entries (some r), 16 ≤ (x.at (some r) p).1 :=
      hsystem.imp_right fun hzero => (hs.system hzero).2 r hr huse
    have hother := hno (some r)
    generalize hentries : x.entries (some r) = entries at hchain hhigh
    cases hchain with
    | last flag header short fits =>
      -- the last entry of an empty record has been taken for one
      obtain ⟨j, hnext⟩ | ⟨ino, hfound⟩ := examine_cases dirname (firstEntry (x.mem (some r))) _ (h.enter r)
      · rw [hnext] at hpass
        obtain ⟨fuel', hrun⟩ := hyields.rest scanPass_steady hpass
        obtain ⟨more, others, hadds, -⟩ := hs.run_adds rfl hrun
        rw [hadds, List.map_cons, hentries] at hall
        simp [History.enter, History.see] at hall
      · rw [hfound] at hpass
        obtain ⟨hfalse, -⟩ := (Yields.done hpass).unique scanPass_steady hyields
        cases hfalse
    | @entry _ ps flag name fits tail =>
      obtain ⟨j, hj, hnext⟩ :=
        examine_other (c := ⟨m, firstEntry (x.mem (some r)) + entryLength (x.mem (some r)) (firstEntry (x.mem (some r))), x.size - 0x52,
        (testedFrom x.count bits (r + 1)).head?, c.chkSfn⟩) (h := h.enter r) hagree (by omega) (hother _)
          (hhigh.imp_right fun hall => hall _ List.mem_cons_self)
      have hyields' := hyields.rest scanPass_steady (hpass.trans (congrArg some hnext))
      rw [List.map_cons, hentries] at hall
      obtain ⟨hcut, c', hends', hrecord', hj', hyields''⟩ :=
        hs.chain_complete (r := r + 1) tail hagree rfl (fun q _ => hother q) (.inl hj) rfl hyields' hall
      have hothers := ih hends' (.inl (hj' hj)) hyields'' rfl hrecord' (by rw [hall]; simp [History.all, History.enter, History.see])
      rintro r' hr'
      obtain rfl | hr' := List.mem_cons.1 hr'
      · rw [hentries]
        exact ⟨List.cons_ne_nil _ _, hcut⟩
      · exact hothers r' hr'

end Sequence

/-! ## Directories that are searched right -/

section Searches
variable {x : Index} {chkSfn : Int} {dirname : List Byte} {fuel : Nat}

/-- The bytes of the bitmap, as they have been read. -/
def Index.bits (x : Index) (b : Buffers) : Mem := x.bitmap.readInto x.bitmap.size b.bitmapData

theorem Index.Stored.recordSize_eq (hs : x.Stored chkSfn) (b : Buffers) : myIndexRecordSize x.root b = x.size := by
  rw [myIndexRecordSize, signedValue_congr (fun i hi => Attribute.readInto_agrees hs.root hs.header b.fnbuf hi) (by decide)]
  exact hs.recordSize

theorem Index.lookup_longName (x : Index) : x.lookup longName = none := by
  rw [Index.lookup, List.find?_eq_none]
  intro e he
  obtain ⟨⟨n, ps⟩, -, he⟩ := List.mem_flatMap.1 he
  obtain ⟨p, -, rfl⟩ := List.mem_map.1 he
  exact fun hname => not_sameName_long (x.mem n) p (of_decide_eq_true hname)

/-- A search that has compared a name, or has not begun with one, finds no number below 16. -/
def Above : Flow Cursor History Outcome → Prop
  | .next c _ => c.chkSfn ≠ 0
  | .done o _ => ∀ ino, o = .found ino → 16 ≤ ino

theorem examine_above {c : Cursor} (hchk : c.chkSfn ≠ 0) (dirname : List Byte) (entry : Nat) (h : History) :
    Above (examine dirname entry c h) := by
  unfold examine
  dsimp only
  split
  next => exact hchk
  next hnumber =>
    split
    next hother => exact hother
    next =>
      rintro ino heq
      cases heq
      exact Int.not_lt.1 hnumber

theorem scanPass_above {blocksize : BitVec 16} {alloc : Attribute} {size : Int} {bitmap : Mem} {c : Cursor} {h : History}
    {flow : Flow Cursor History Outcome}
    (hpass : scanPass blocksize alloc size bitmap dirname fuel c h = some flow) (hchk : c.chkSfn ≠ 0) : Above flow := by
  unfold scanPass at hpass
  dsimp only at hpass
  split at hpass
  · split at hpass
    · cases hpass
      exact fun ino => nofun
    · split at hpass
      · cases hpass
        exact fun ino => nofun
      · split at hpass
        · cases hpass
        · cases hpass
          exact fun ino => nofun
        · split at hpass
          · cases hpass
          · cases hpass
            exact examine_above (by exact hchk) ..
  · cases hpass
    exact examine_above (by exact hchk) ..

theorem Index.Stored.found_above (hs : x.Stored chkSfn) {b : Buffers} {ino : Int} {k : History} (hchk : chkSfn ≠ 0)
    (hsearch : searchDir x.directory dirname chkSfn b fuel = some (.found ino, k)) : 16 ≤ ino := by
  simp only [searchDir, Index.directory, hs.recordSize_eq] at hsearch
  split at hsearch
  · cases hsearch
  · split at hsearch
    · cases hsearch
    · split at hsearch
      · cases hsearch
      · split at hsearch
        · cases hsearch
        · refine Loop.run_rule (I := fun c _ => c.chkSfn ≠ 0) (Q := fun o _ => ∀ ino, o = .found ino → 16 ≤ ino) ?_ ?_ hsearch hchk ino rfl
          · intro fuel c c' h h' hpass hchk
            exact scanPass_above hpass hchk
          · intro fuel c h h' o hpass hchk
            exact scanPass_above hpass hchk

/-- A search that does not find a name was not refused before it began. -/
theorem Index.Stored.of_notFound {b : Buffers} {k : History} (hs : x.Stored chkSfn)
    (hsearch : searchDir x.directory dirname chkSfn b fuel = some (.failed .fileNotFound, k)) :
    (x.size ≤ maxIndexRecordSize ∧ x.root.size ≤ maxIndexRecordSize ∧ x.bitmap.size ≤ maxIndexBitmapSize) ∧
      Yields (x.pass (x.bits b) dirname) (startCursor x.root (testedFrom x.count (x.bits b) 0).head? chkSfn b) noHistory
        (.failed .fileNotFound) k := by
  simp only [searchDir, Index.directory, hs.recordSize_eq] at hsearch
  split at hsearch
  · cases hsearch
  · split at hsearch
    · cases hsearch
    · split at hsearch
      · cases hsearch
      · refine ⟨⟨by omega, by omega, by omega⟩, fuel, ?_⟩
        cases hnext : Ntfs.nextRecord x.size x.alloc.size (x.bits b) fuel 0 with
        | none =>
          rw [Index.bits] at hnext
          rw [hnext] at hsearch
          cases hsearch
        | some next =>
          obtain rfl := hs.nextRecord_some hnext
          rw [Index.bits] at hnext ⊢
          rw [hnext] at hsearch
          exact hsearch

/-- The directories that are searched right have a number above 15 behind each name. -/
theorem Index.Searches.numbers (hs : x.Stored chkSfn) (hx : x.Searches chkSfn) {e : Int × List Byte} (hfirst : x.lookup dirname = some e) :
    16 ≤ e.1 := by
  by_cases hchk : chkSfn = 0
  · obtain ⟨hroot, hrecords⟩ := hs.system hchk
    obtain ⟨⟨n, ps⟩, hnode, he⟩ := List.mem_flatMap.1 (List.mem_of_find?_eq_some hfirst)
    obtain ⟨m, hm, hpair⟩ := List.mem_map.1 hnode
    obtain ⟨rfl, rfl⟩ := Prod.mk.inj hpair
    obtain ⟨p, hp, rfl⟩ := List.mem_map.1 he
    obtain rfl | hm := List.mem_cons.1 hm
    · exact hroot p hp
    · obtain ⟨r, hr, rfl⟩ := List.mem_map.1 hm
      obtain ⟨hrange, huse⟩ := List.mem_filter.1 hr
      exact hrecords r (List.mem_range.1 hrange) (of_decide_eq_true huse) p hp
  · obtain ⟨fuel, k, hsearch⟩ := hx dirname ⟨fun _ => 0, fun _ => 0, fun _ => 0⟩
    rw [hfirst] at hsearch
    exact hs.found_above hchk hsearch

/-- What a directory that is searched right for a long name comes to: the bits that are tested are those of the records, and every
node is complete. -/
theorem Index.Searches.complete (hs : x.Stored chkSfn) (hx : x.Searches chkSfn) (b : Buffers) :
    (x.size ≤ maxIndexRecordSize ∧ x.root.size ≤ maxIndexRecordSize ∧ x.bitmap.size ≤ maxIndexBitmapSize) ∧
      (∀ r < x.count, (tested (x.bits b) r ↔ x.InUse r)) ∧ (∀ p ∈ x.entries none, ¬ Cut (x.mem none) x.root.size p) ∧
      ∀ r < x.count, x.InUse r → x.entries (some r) ≠ [] ∧ ∀ p ∈ (x.entries (some r)).tail, ¬ Cut (x.mem (some r)) (x.size - 0x52) p := by
  obtain ⟨fuel, k, hsearch⟩ := hx longName b
  rw [x.lookup_longName] at hsearch
  obtain ⟨hsearch, hall⟩ := hsearch
  obtain ⟨hsizes, hyields⟩ := hs.of_notFound hsearch
  have hyields' := hyields
  obtain ⟨fuel', hrun⟩ := hyields'
  obtain ⟨more, others, hadds, hothers⟩ := hs.run_adds rfl hrun
  have hsome : x.inUse = testedFrom x.count (x.bits b) 0 := by
    rw [hall, Index.nodes, List.map_cons] at hadds
    have hrecords := congrArg (List.map Prod.fst) (List.cons.inj hadds).2
    rw [hothers, List.map_map] at hrecords
    have hmap : x.inUse.map some = (testedFrom x.count (x.bits b) 0).map some := by
      rw [← hrecords, List.map_map]
      rfl
    exact (List.map_injective_iff.2 (Option.some_injective _)) hmap
  have hbits : ∀ r < x.count, (tested (x.bits b) r ↔ x.InUse r) := by
    intro r hr
    have hmem : r ∈ x.inUse ↔ r ∈ testedFrom x.count (x.bits b) 0 := by rw [hsome]
    rw [testedFrom_all, Index.inUse, List.mem_filter, List.mem_filter, List.mem_range, decide_eq_true_iff] at hmem
    exact ⟨fun h => (hmem.2 ⟨hr, h⟩).2, fun h => (hmem.1 ⟨hr, h⟩).2⟩
  have hno : ∀ n p, ¬ Named longName (x.at n p) := fun n p => not_named_long (x.mem n) p
  obtain ⟨hroot, c', hends, hrecord, hk, hyields'⟩ := hs.chain_complete (r := 0) hs.rootChain
    (fun i hi => Attribute.readInto_agrees hs.root (Nat.le_refl _) _ hi) rfl (fun q _ => hno none q)
    (Decidable.or_iff_not_imp_left.2 fun hzero => (hs.system (Decidable.not_not.1 hzero)).1) rfl hyields hall
  have hcomplete := hs.complete_of_run (fun r hr => (hbits r hr).1) hends hrecord hno (Decidable.or_iff_not_imp_right.2 hk) hyields' (by
    rw [hall, Index.nodes, List.map_cons, List.map_map, hsome]
    rfl)
  refine ⟨hsizes, hbits, hroot, fun r hr huse => hcomplete r ?_⟩
  rw [← hsome]
  exact List.mem_filter.2 ⟨List.mem_range.2 hr, decide_eq_true huse⟩

end Searches

/-! ### A directory with one record in use -/

/-- An attribute that can be read. -/
def plain (bytes : List Byte) : Attribute := ⟨bytes, fun off len => .ok (segment bytes off len)⟩

/-- A root with nothing but its last entry. -/
def sampleRoot : List Byte :=
  List.replicate 9 0 ++ [1] ++ List.replicate 30 0 ++ [0x10, 0, 0, 0, 2, 0, 0, 0]

end TrustedGrub.Ntfs
