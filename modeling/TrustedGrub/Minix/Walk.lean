import TrustedGrub.Minix.Read

/-!
# What `minix_read` delivers

A file is what a walk of its tree gives that keeps no block. Zones that are zero are holes. The blocks that the code keeps
are those that their keys say, until a read fails that has overwritten one of them.
-/

namespace TrustedGrub.Minix
open Disk (GrubError)
open Fsys (Byte Block Partition Io devread_cases ofNat_toNat_small)
open Loop (Before Flow Passed Steady Yields run)

variable {σ : Type}

/-! ## The walk that keeps nothing -/

/-- The zone numbers in a block on the disk. -/
def image (d : Partition σ) (z : Zone) (i : Nat) : Zone := entry (fun j => d.bytes (1024 * z.toNat + j)) i

/-- The zone at the end of a path of indices. A zero on the way is a hole. -/
def follow (image : Zone → Nat → Zone) : Zone → List Nat → Zone
  | z, [] => z
  | z, i :: path => if z = 0 then 0 else follow image (image z i) path

/-- No zone on the path is zero. -/
def Solid (image : Zone → Nat → Zone) : Zone → List Nat → Prop
  | z, [] => z ≠ 0
  | z, i :: path => z ≠ 0 ∧ Solid image (image z i) path

instance Solid.decidable (image : Zone → Nat → Zone) : (z : Zone) → (path : List Nat) → Decidable (Solid image z path)
  | z, [] => inferInstanceAs (Decidable (z ≠ 0))
  | z, i :: path =>
    have := Solid.decidable image (image z i) path
    inferInstanceAs (Decidable (z ≠ 0 ∧ Solid image (image z i) path))

/-- The zone of the inode that leads to a block of the file, and the indices behind it. -/
def pathOf (n : Nat) : Nat × List Nat :=
  if n < 7 then (n, []) else if n - 7 < 512 then (7, [n - 7]) else (8, [(n - 7 - 512) / 512, (n - 7 - 512) % 512])

/-- Where a block of the file lies. -/
def walk (d : Partition σ) (zone : Nat → Zone) (n : Nat) : Zone := follow (image d) (zone (pathOf n).1) (pathOf n).2

/-- A byte of the file. -/
def fileByte (d : Partition σ) (zone : Nat → Zone) (p : Nat) : Byte :=
  if walk d zone (p / 1024) = 0 then 0 else d.bytes (1024 * (walk d zone (p / 1024)).toNat + p % 1024)

/-- The bytes that the tree of an inode can have. -/
def reach : Nat := 1024 * (7 + 512 + 512 * 512)

/-- A block of the file that is no hole. -/
def SolidAt (d : Partition σ) (zone : Nat → Zone) (n : Nat) : Prop := Solid (image d) (zone (pathOf n).1) (pathOf n).2

/-! ## Requests -/

/-- `len` bytes from `filepos` on, for the memory `mem`. -/
structure Request where
  filepos : Nat
  len : Nat
  mem : Block

/-- A request is answered with the bytes of the file, with nothing else changed in the memory, and the next one goes on
behind it; or a read has failed, and this is reported. -/
inductive Answered (d : Partition σ) (q : Request) (s : State σ) : Nat × Block × State σ → Prop where
  | delivered {mem : Block} {s' : State σ} (bytes : ∀ i < q.len, mem i = fileByte d s.zone (q.filepos + i))
    (rest : ∀ i, q.len ≤ i → mem i = q.mem i)
      (errnum : s'.io.errnum = .none) (failures : s'.failures = s.failures) (filepos : s'.filepos = q.filepos + q.len) :
          Answered d q s (q.len, mem, s')
  | failed {mem : Block} {s' : State σ} (errnum : s'.io.errnum ≠ .none) (failures : s.failures < s'.failures) : Answered d q s (0, mem, s')

/-- The read of a block into a buffer leaves it as it was if it fails. -/
def Spares (d : Partition σ) (z : Zone) (buf : Block) (s : State σ) : Prop :=
  ∀ left s', rdfsb d z.toNat buf s = (false, left, s') → left = buf

/-- What is read for a block of the file into `DATABLOCK1` and `DATABLOCK2` goes into a buffer without a key, or it leaves
the buffer as it was if it fails. -/
def Calm (d : Partition σ) (n : Nat) (s : State σ) : Prop :=
  match pathOf n with
  | (_, []) => True
  | (_, [_]) => s.mapblock1 = -1 ∨ s.mapblock1 = 1 ∨ Spares d (s.zone 7) s.datablock1 s
  | (_, i :: _) => (s.mapblock1 = -1 ∨ s.mapblock1 = 2 ∨ Spares d (s.zone 8) s.datablock1 s) ∧
      (s.mapblock2 = -1 ∨ s.mapblock2 = (image d (s.zone 8) i).toNat ∨
        Spares d (image d (s.zone 8) i) s.datablock2 { (load1 d 2 (s.zone 8) s).2 with mapblock1 := 2 })

/-- What a request needs: no hole among its blocks, and at each of them a read into a buffer that does no harm. -/
structure Meets (d : Partition σ) (q : Request) (s : State σ) : Prop where
  inside : q.filepos + q.len ≤ reach
  solid : ∀ n, q.filepos / 1024 ≤ n → 1024 * n < q.filepos + q.len → SolidAt d s.zone n
  calm : ∀ t g, Passed (readPass d) ⟨q.len, 0, q.mem⟩ (s.seek q.filepos) t g → 0 < t.len → Calm d (g.filepos / 1024) g

/-- The states that come of a file that has been opened, requests and their answers, failures among them. -/
inductive Reached (d : Partition σ) : State σ → Prop where
  | opened {s : State σ} (zone : Nat → Zone) (datablock1 datablock2 : Block) : Reached d (s.opened zone datablock1 datablock2)
  | read {s s' : State σ} {q : Request} {fuel ret : Nat} {mem : Block} (before : Reached d s) (meets : Meets d q s)
      (answer : minixRead d fuel q.len q.mem (s.seek q.filepos) = some (ret, mem, s')) : Reached d s'

/-! ## Reads -/

/-- Nothing has failed since. -/
structure Fine (s s' : State σ) : Prop where
  errnum : s'.io.errnum = s.io.errnum
  failures : s'.failures = s.failures

/-- Something has failed since, if it had not before. -/
structure Failed (s s' : State σ) : Prop where
  errnum : s'.io.errnum ≠ .none
  counted : s.io.errnum = .none → s.failures < s'.failures
  failures : s.failures ≤ s'.failures

theorem Fine.trans {s s' s'' : State σ} (h : Fine s s') (h' : Fine s' s'') : Fine s s'' :=
  ⟨h'.errnum.trans h.errnum, h'.failures.trans h.failures⟩

theorem Fine.failed {s s' s'' : State σ} (h : Fine s s') (h' : Failed s' s'') : Failed s s'' :=
  ⟨h'.errnum, fun hs => h.failures ▸ h'.counted (h.errnum.trans hs), h.failures ▸ h'.failures⟩

theorem Failed.failed {s s' s'' : State σ} (h : Failed s s') (h' : Failed s' s'') : Failed s s'' :=
  ⟨h'.errnum, fun hs => Nat.lt_of_lt_of_le (h.counted hs) h'.failures, Nat.le_trans h.failures h'.failures⟩

theorem Failed.fine {s s' s'' : State σ} (h : Failed s s') (h' : Fine s' s'') : Failed s s'' :=
  ⟨h'.errnum ▸ h.errnum, fun hs => h'.failures ▸ h.counted hs, h'.failures ▸ h.failures⟩

/-- What a read comes to. -/
inductive Fetched (d : Partition σ) (pos n : Nat) (buf : Block) (s : State σ) : Bool × Block × State σ → Prop where
  | delivered {b : Block} {io : Io σ} (bytes : ∀ i < n, b i = d.bytes (pos + i)) (rest : ∀ i, n ≤ i → b i = buf i)
    (fine : Fine s { s with io }) :
      Fetched d pos n buf s (true, b, { s with io })
  | failed {b : Block} {io : Io σ} {failures : Nat} (failed : Failed s { s with io, failures }) :
      Fetched d pos n buf s (false, b, { s with io, failures })

section Reads
variable {d : Partition σ} {s : State σ} {buf : Block} {sector byteOffset byteLen : Nat}

theorem devread_fetched (hsector : sector < 2 ^ 31) (hoffset : byteOffset < 2 ^ 31) (hlen : byteLen < 2 ^ 31) :
    Fetched d (512 * sector + byteOffset) byteLen buf s (devread d sector byteOffset byteLen buf s) := by
  rw [devread]
  split
  next hnone =>
    obtain ⟨dev, hread⟩ | ⟨b, io, hread, herrnum⟩ :=
      @devread_cases _ d buf s.io (.ofNat 32 sector) (.ofNat 32 byteOffset) (.ofNat 32 byteLen)
    · rw [hread, ofNat_toNat_small hsector, ofNat_toNat_small hoffset, ofNat_toNat_small hlen]
      refine .delivered (fun i hi => if_pos hi) (fun i hi => if_neg (Nat.not_lt.2 hi)) ⟨rfl, rfl⟩
    · rw [hread]
      exact .failed ⟨herrnum, fun _ => Nat.lt_succ_self _, Nat.le_succ _⟩
  next hsome =>
    split
    · exact .failed ⟨GrubError.noConfusion, fun hnone => absurd hnone hsome, Nat.le_refl _⟩
    · exact .failed ⟨hsome, fun hnone => absurd hnone hsome, Nat.le_refl _⟩

theorem rdfsb_fetched (z : Zone) : Fetched d (1024 * z.toNat) 1024 buf s (rdfsb d z.toNat buf s) := by
  have hlt := z.isLt
  have hread := @devread_fetched _ d s buf (z.toNat * 2) 0 1024 (by omega) (by decide) (by decide)
  rw [show 512 * (z.toNat * 2) + 0 = 1024 * z.toNat by omega] at hread
  exact hread

end Reads

/-! ## The blocks that are kept -/

/-- A block of zone numbers as it is on the disk. -/
def Holds (d : Partition σ) (b : Block) (z : Zone) : Prop := ∀ i < 1024, b i = d.bytes (1024 * z.toNat + i)

/-- A buffer that has a key holds the block that the key says. -/
structure Keyed (d : Partition σ) (s : State σ) : Prop where
  first : s.mapblock1 = -1 ∨ s.mapblock1 = 1 ∧ Holds d s.datablock1 (s.zone 7) ∨ s.mapblock1 = 2 ∧ Holds d s.datablock1 (s.zone 8)
  second : s.mapblock2 = -1 ∨ ∃ z : Zone, s.mapblock2 = z.toNat ∧ Holds d s.datablock2 z

section Buffers
variable {d : Partition σ} {s : State σ} {z : Zone} {b : Block} {i n : Nat}

theorem Holds.entry (h : Holds d b z) (hi : i < 512) : entry b i = image d z i := by
  rw [image, Minix.entry, Minix.entry, h _ (by omega), h _ (by omega)]

/-- What comes of a block for `DATABLOCK1`. -/
inductive First (d : Partition σ) (key : Int) (z : Zone) (s : State σ) : Bool × State σ → Prop where
  | held {datablock1 : Block} {io : Io σ} (holds : Holds d datablock1 z) (fine : Fine s { s with datablock1, io }) :
      First d key z s (true, { s with datablock1, io })
  | failed {datablock1 : Block} {io : Io σ} {failures : Nat} (other : s.mapblock1 ≠ key)
    (spared : Spares d z s.datablock1 s → datablock1 = s.datablock1)
      (failed : Failed s { s with datablock1, io, failures }) : First d key z s (false, { s with datablock1, io, failures })

theorem load1_first {key : Int} (hheld : s.mapblock1 = key → Holds d s.datablock1 z) : First d key z s (load1 d key z s) := by
  rw [load1]
  split
  next hother =>
    generalize hread : rdfsb d z.toNat s.datablock1 s = read
    have hfetched := @rdfsb_fetched _ d s s.datablock1 z
    rw [hread] at hfetched
    cases hfetched with
    | delivered bytes rest fine => exact .held bytes ⟨fine.errnum, fine.failures⟩
    | failed failed => exact .failed hother (fun hspares => hspares _ _ hread) ⟨failed.errnum, failed.counted, failed.failures⟩
  next hkey => exact .held (hheld (Decidable.not_not.1 hkey)) ⟨rfl, rfl⟩

/-- What comes of a block for `DATABLOCK2`. -/
inductive Second (d : Partition σ) (z : Zone) (s : State σ) : Bool × State σ → Prop where
  | held {datablock2 : Block} {io : Io σ} (holds : Holds d datablock2 z) (fine : Fine s { s with datablock2, io }) :
      Second d z s (true, { s with datablock2, io })
  | failed {datablock2 : Block} {io : Io σ} {failures : Nat} (other : s.mapblock2 ≠ z.toNat)
    (spared : Spares d z s.datablock2 s → datablock2 = s.datablock2)
      (failed : Failed s { s with datablock2, io, failures }) : Second d z s (false, { s with datablock2, io, failures })

theorem load2_second (hheld : s.mapblock2 = z.toNat → Holds d s.datablock2 z) : Second d z s (load2 d z s) := by
  rw [load2]
  split
  next hother =>
    generalize hread : rdfsb d z.toNat s.datablock2 s = read
    have hfetched := @rdfsb_fetched _ d s s.datablock2 z
    rw [hread] at hfetched
    cases hfetched with
    | delivered bytes rest fine => exact .held bytes ⟨fine.errnum, fine.failures⟩
    | failed failed => exact .failed hother (fun hspares => hspares _ _ hread) ⟨failed.errnum, failed.counted, failed.failures⟩
  next hkey => exact .held (hheld (Decidable.not_not.1 hkey)) ⟨rfl, rfl⟩

theorem Keyed.single (h : Keyed d s) (hkey : s.mapblock1 = 1) : Holds d s.datablock1 (s.zone 7) := by
  obtain hnone | ⟨-, hholds⟩ | ⟨htwo, -⟩ := h.first
  · omega
  · exact hholds
  · omega

theorem Keyed.double (h : Keyed d s) (hkey : s.mapblock1 = 2) : Holds d s.datablock1 (s.zone 8) := by
  obtain hnone | ⟨hone, -⟩ | ⟨-, hholds⟩ := h.first
  · omega
  · omega
  · exact hholds

theorem Keyed.block2 (h : Keyed d s) (hkey : s.mapblock2 = z.toNat) : Holds d s.datablock2 z := by
  obtain hnone | ⟨z', hz', hholds⟩ := h.second
  · omega
  · obtain rfl : z' = z := BitVec.eq_of_toNat_eq (by omega)
    exact hholds

end Buffers

/-! ## Blocks of the file -/

/-- What comes of the request for a block of the file. -/
inductive Mapped (d : Partition σ) (n : Nat) (s : State σ) : Int × State σ → Prop where
  | found {s' : State σ} (zone : s'.zone = s.zone) (filepos : s'.filepos = s.filepos) (keyed : Keyed d s') (fine : Fine s s') :
      Mapped d n s ((walk d s.zone n).toNat, s')
  | failed {s' : State σ} (zone : s'.zone = s.zone) (filepos : s'.filepos = s.filepos) (keyed : Keyed d s') (failed : Failed s s') :
      Mapped d n s (-1, s')

section Blocks
variable {d : Partition σ} {s : State σ} {n : Nat}

/-- The read of the first block for a block of the file has failed. -/
theorem Keyed.missed {key : Int} {z : Zone} {datablock1 : Block} {io : Io σ} {failures : Nat} (h : Keyed d s) (hother : s.mapblock1 ≠ key)
    (hspared : Spares d z s.datablock1 s → datablock1 = s.datablock1)
    (hcalm : s.mapblock1 = -1 ∨ s.mapblock1 = key ∨ Spares d z s.datablock1 s) :
    Keyed d ({ s with datablock1, io, failures } : State σ) := by
  obtain hnone | hkey | hspares := hcalm
  · exact ⟨.inl hnone, h.second⟩
  · exact absurd hkey hother
  · obtain rfl := hspared hspares
    exact ⟨h.first, h.second⟩

theorem Failed.corrupt {s' : State σ} (h : Failed s s') : Failed s s'.corrupt.2 := ⟨GrubError.noConfusion, h.counted, h.failures⟩

theorem Keyed.corrupt (h : Keyed d s) : Keyed d s.corrupt.2 := ⟨h.first, h.second⟩

theorem blockMap_direct (h : Keyed d s) (hn : n < 7) : Mapped d n s (blockMap d n s) := by
  have hpath : pathOf n = (n, []) := if_pos hn
  have hwalk : walk d s.zone n = s.zone n := by rw [walk, hpath, follow]
  rw [blockMap, if_pos hn, ← hwalk]
  exact .found rfl rfl h ⟨rfl, rfl⟩

theorem blockMap_single (h : Keyed d s) (hn : ¬ n < 7) (hlt : n - 7 < 512) (hsolid : SolidAt d s.zone n) (hcalm : Calm d n s) :
    Mapped d n s (blockMap d n s) := by
  have hpath : pathOf n = (7, [n - 7]) := by rw [pathOf, if_neg hn, if_pos hlt]
  rw [SolidAt, hpath] at hsolid
  rw [Calm, hpath] at hcalm
  have hwalk : walk d s.zone n = image d (s.zone 7) (n - 7) := by
    rw [walk, hpath, follow, if_neg hsolid.1, follow]
  rw [blockMap, if_neg hn]
  simp only [if_pos hlt, if_neg hsolid.1]
  generalize hload : load1 d 1 (s.zone 7) s = load
  have hfirst := load1_first (d := d) (s := s) (z := s.zone 7) h.single
  rw [hload] at hfirst
  cases hfirst with
  | held holds fine =>
    show Mapped d n s ((Minix.entry _ (n - 7)).toNat, _)
    rw [holds.entry hlt, ← hwalk]
    exact .found rfl rfl ⟨.inr (.inl ⟨rfl, holds⟩), h.second⟩ ⟨fine.errnum, fine.failures⟩
  | failed other spared failed => exact .failed rfl rfl (h.missed other spared hcalm).corrupt failed.corrupt

theorem blockMap_double (h : Keyed d s) (hn : ¬ n < 7) (hge : ¬ n - 7 < 512) (hreach : n < 7 + 512 + 512 * 512)
    (hsolid : SolidAt d s.zone n)
    (hcalm : Calm d n s) : Mapped d n s (blockMap d n s) := by
  have hpath : pathOf n = (8, [(n - 7 - 512) / 512, (n - 7 - 512) % 512]) := by rw [pathOf, if_neg hn, if_neg hge]
  rw [SolidAt, hpath] at hsolid
  rw [Calm, hpath] at hcalm
  obtain ⟨hzone, hblock, -⟩ := hsolid
  obtain ⟨hcalm, hcalm'⟩ := hcalm
  have hwalk : walk d s.zone n = image d (image d (s.zone 8) ((n - 7 - 512) / 512)) ((n - 7 - 512) % 512) := by
    rw [walk, hpath, follow, if_neg hzone, follow, if_neg hblock, follow]
  have hshift : (n - 7 - 512) >>> 9 = (n - 7 - 512) / 512 := Nat.shiftRight_eq_div_pow _ _
  have hmask : (n - 7 - 512) &&& 511 = (n - 7 - 512) % 512 := Nat.and_two_pow_sub_one_eq_mod _ 9
  rw [blockMap, if_neg hn]
  simp only [if_neg hge, if_neg hzone]
  generalize hload : load1 d 2 (s.zone 8) s = load at hcalm'
  have hfirst := load1_first (d := d) (s := s) (z := s.zone 8) h.double
  rw [hload] at hfirst
  cases hfirst with
  | failed other spared failed => exact .failed rfl rfl (h.missed other spared hcalm).corrupt failed.corrupt
  | @held datablock1 io holds fine =>
    have hentry : Minix.entry datablock1 ((n - 7 - 512) >>> 9) = image d (s.zone 8) ((n - 7 - 512) / 512) := by
      rw [hshift, holds.entry (by omega)]
    simp only [hentry, if_neg hblock, hmask]
    generalize image d (s.zone 8) ((n - 7 - 512) / 512) = z at hcalm' hwalk ⊢
    have hkeyed : Keyed d ({ s with datablock1, io, mapblock1 := 2 } : State σ) := ⟨.inr (.inr ⟨rfl, holds⟩), h.second⟩
    generalize hload' : load2 d z ({ s with datablock1, io, mapblock1 := 2 } : State σ) = load'
    have hsecond := load2_second (d := d) (s := ({ s with datablock1, io, mapblock1 := 2 } : State σ)) (z := z) hkeyed.block2
    rw [hload'] at hsecond
    cases hsecond with
    | held holds' fine' =>
      show Mapped d n s ((Minix.entry _ ((n - 7 - 512) % 512)).toNat, _)
      rw [holds'.entry (Nat.mod_lt _ (by decide)), ← hwalk]
      exact .found rfl rfl ⟨.inr (.inr ⟨rfl, holds⟩), .inr ⟨z, rfl, holds'⟩⟩ (fine.trans ⟨fine'.errnum, fine'.failures⟩)
    | failed other spared failed =>
      refine .failed rfl rfl ?_ (fine.failed (Failed.corrupt ⟨failed.errnum, failed.counted, failed.failures⟩))
      obtain hnone | hkey | hspares := hcalm'
      · exact ⟨hkeyed.first, .inl hnone⟩
      · exact absurd hkey other
      · obtain rfl := spared hspares
        exact ⟨hkeyed.first, hkeyed.second⟩

theorem blockMap_mapped (h : Keyed d s) (hreach : n < 7 + 512 + 512 * 512) (hsolid : SolidAt d s.zone n) (hcalm : Calm d n s) :
    Mapped d n s (blockMap d n s) := by
  by_cases hn : n < 7
  · exact blockMap_direct h hn
  · by_cases hlt : n - 7 < 512
    · exact blockMap_single h hn hlt hsolid hcalm
    · exact blockMap_double h hn hlt hreach hsolid hcalm

end Blocks

/-! ## The loop -/

section Passes
variable {d : Partition σ} {s : State σ} {q : Request} {t : Locals}

/-- A block of the file that is no hole is where the walk ends. -/
theorem SolidAt.walk_ne_zero {zone : Nat → Zone} {n : Nat} (h : SolidAt d zone n) : walk d zone n ≠ 0 := by
  rw [SolidAt] at h
  rw [walk]
  generalize zone (pathOf n).1 = z, (pathOf n).2 = path at h ⊢
  induction path generalizing z with
  | nil => exact h
  | cons i path ih =>
    rw [follow, if_neg h.1]
    exact ih _ h.2

/-- What a pass comes to that finds its block. -/
inductive Stepped (d : Partition σ) (t : Locals) (s : State σ) : Flow Locals (State σ) Locals → Prop where
  | read {n : Nat} {mem : Block} {s' : State σ} (pos : 0 < n) (le : n ≤ t.len)
    (bytes : ∀ i < n, mem (t.ret + i) = fileByte d s.zone (s.filepos + i))
      (before : ∀ i < t.ret, mem i = t.mem i) (behind : ∀ i, t.ret + n ≤ i → mem i = t.mem i) (zone : s'.zone = s.zone)
        (filepos : s'.filepos = s.filepos + n)
      (keyed : Keyed d s') (fine : Fine s s') : Stepped d t s (.next ⟨t.len - n, t.ret + n, mem⟩ s')
  | unread {n : Nat} {mem : Block} {s' : State σ} (pos : 0 < n) (le : n ≤ t.len) (zone : s'.zone = s.zone)
    (filepos : s'.filepos = s.filepos + n)
      (keyed : Keyed d s') (failed : Failed s s') : Stepped d t s (.next ⟨t.len - n, t.ret + n, mem⟩ s')
  | unmapped {s' : State σ} (keyed : Keyed d s') (failed : Failed s s') : Stepped d t s (.done t s')

theorem readPass_stepped (h : Keyed d s) (hlen : 0 < t.len) (hreach : s.filepos < reach) (hsolid : SolidAt d s.zone (s.filepos / 1024))
    (hcalm : Calm d (s.filepos / 1024) s) (fuel : Nat) : ∃ flow, readPass d fuel t s = some flow ∧ Stepped d t s flow := by
  have hblock : s.filepos >>> 10 = s.filepos / 1024 := Nat.shiftRight_eq_div_pow _ _
  have hmask : s.filepos &&& 1023 = s.filepos % 1024 := Nat.and_two_pow_sub_one_eq_mod _ 10
  rw [reach] at hreach
  refine ⟨_, rfl, ?_⟩
  rw [if_neg (Nat.ne_of_gt hlen), hblock]
  generalize hmap : blockMap d (s.filepos / 1024) s = mapped
  have hmapped := blockMap_mapped h (by omega) hsolid hcalm
  rw [hmap] at hmapped
  cases hmapped with
  | failed zone filepos keyed failed => exact .unmapped keyed failed
  | @found s' zone filepos keyed fine =>
    have hnonneg : ¬ ((walk d s.zone (s.filepos / 1024)).toNat : Int) < 0 := by omega
    simp only [if_neg hnonneg, filepos, hmask, Int.toNat_natCast]
    generalize hread : devread d ((walk d s.zone (s.filepos / 1024)).toNat * 2) (s.filepos % 1024) (min (1024 - s.filepos % 1024) t.len)
      (fun i => t.mem (t.ret + i)) s' = read
    have hfetched := @devread_fetched _ d s' (fun i => t.mem (t.ret + i)) ((walk d s.zone (s.filepos / 1024)).toNat * 2)
      (s.filepos % 1024) (min (1024 - s.filepos % 1024) t.len) (by omega) (by omega) (by omega)
    rw [hread] at hfetched
    cases hfetched with
    | @delivered b io bytes rest fine' =>
      refine .read (by omega) (by omega) (fun i hi => ?_) (fun i hi => if_pos hi) (fun i hi => ?_) zone (congrArg (· + _) filepos)
        ⟨keyed.first, keyed.second⟩
        (fine.trans ⟨fine'.errnum, fine'.failures⟩)
      · show (if t.ret + i < t.ret then t.mem (t.ret + i) else b (t.ret + i - t.ret)) = _
        have hdiv : (s.filepos + i) / 1024 = s.filepos / 1024 := by omega
        rw [if_neg (by omega), Nat.add_sub_cancel_left, bytes i hi, fileByte, hdiv, if_neg hsolid.walk_ne_zero]
        congr 1
        omega
      · show (if i < t.ret then t.mem i else b (i - t.ret)) = _
        rw [if_neg (by omega), rest _ (by omega)]
        congr 1
        omega
    | failed failed =>
      exact .unread (by omega) (by omega) zone (congrArg (· + _) filepos) ⟨keyed.first, keyed.second⟩
        (fine.failed ⟨failed.errnum, failed.counted, failed.failures⟩)

end Passes


/-! ## Runs -/

section Runs
variable {d : Partition σ} {s s₀ : State σ} {q : Request} {t t₀ : Locals}

/-- What a pass has to go by: the blocks that are left to read are no holes, and the reads for them do no harm. -/
structure Ahead (d : Partition σ) (zone : Nat → Zone) (t₀ : Locals) (s₀ : State σ) (t : Locals) (s : State σ) : Prop where
  passed : Passed (readPass d) t₀ s₀ t s
  same : s.zone = zone
  inside : s.filepos + t.len ≤ reach
  solid : ∀ n, s.filepos / 1024 ≤ n → 1024 * n < s.filepos + t.len → SolidAt d zone n
  keyed : Keyed d s

theorem Ahead.stepped {zone : Nat → Zone} (h : Ahead d zone t₀ s₀ t s) (hlen : 0 < t.len)
    (hcalm : ∀ t s, Passed (readPass d) t₀ s₀ t s → 0 < t.len → Calm d (s.filepos / 1024) s) (fuel : Nat) :
    ∃ flow, readPass d fuel t s = some flow ∧ Stepped d t s flow := by
  have hinside := h.inside
  apply readPass_stepped h.keyed hlen (by omega) _ (hcalm t s h.passed hlen)
  rw [h.same]
  exact h.solid _ (Nat.le_refl _) (by omega)

theorem Ahead.next {zone : Nat → Zone} {n fuel : Nat} {mem : Block} {s' : State σ} (h : Ahead d zone t₀ s₀ t s) (hle : n ≤ t.len)
    (hpass : readPass d fuel t s = some (.next ⟨t.len - n, t.ret + n, mem⟩ s')) (hzone : s'.zone = s.zone)
    (hfilepos : s'.filepos = s.filepos + n)
    (hkeyed : Keyed d s') : Ahead d zone t₀ s₀ ⟨t.len - n, t.ret + n, mem⟩ s' := by
  have hinside := h.inside
  refine ⟨h.passed.next fuel hpass, hzone.trans h.same, ?_, fun k hk hlt => h.solid k ?_ ?_, hkeyed⟩
  · show s'.filepos + (t.len - n) ≤ reach
    omega
  · omega
  · simp only at hlt
    omega

theorem readPass_steady : Steady (readPass d) := fun _ _ _ => Before.refl _

/-- What a run comes to. -/
inductive Ended (d : Partition σ) (t : Locals) (s : State σ) : Locals → State σ → Prop where
  | read {mem : Block} {s' : State σ} (bytes : ∀ i < t.len, mem (t.ret + i) = fileByte d s.zone (s.filepos + i))
    (before : ∀ i < t.ret, mem i = t.mem i)
      (behind : ∀ i, t.ret + t.len ≤ i → mem i = t.mem i) (filepos : s'.filepos = s.filepos + t.len) (fine : Fine s s') :
      Ended d t s ⟨0, t.ret + t.len, mem⟩ s'
  | failed {t' : Locals} {s' : State σ} (failed : Failed s s') : Ended d t s t' s'

/-- A run ends as its rest does, after a pass that has read its bytes. -/
theorem Ended.after {n : Nat} {mem : Block} {t' : Locals} {s' s'' : State σ} (h : Ended d ⟨t.len - n, t.ret + n, mem⟩ s' t' s'')
    (hle : n ≤ t.len)
    (hbytes : ∀ i < n, mem (t.ret + i) = fileByte d s.zone (s.filepos + i)) (hbefore : ∀ i < t.ret, mem i = t.mem i)
    (hbehind : ∀ i, t.ret + n ≤ i → mem i = t.mem i) (hzone : s'.zone = s.zone) (hfilepos : s'.filepos = s.filepos + n)
    (hfine : Fine s s') :
    Ended d t s t' s'' := by
  cases h with
  | failed failed => exact .failed (hfine.failed failed)
  | @read mem' _ bytes before behind filepos fine =>
    simp only at bytes before behind filepos
    have hlen : t.ret + n + (t.len - n) = t.ret + t.len := by omega
    simp only [hlen]
    refine .read (fun i hi => ?_) (fun i hi => ?_) (fun i hi => ?_) (by omega) (hfine.trans fine)
    · by_cases hlow : i < n
      · rw [before _ (by omega), hbytes i hlow]
      · have hrest := bytes (i - n) (by omega)
        rw [hzone, hfilepos, show t.ret + n + (i - n) = t.ret + i by omega, show s.filepos + n + (i - n) = s.filepos + i by omega] at hrest
        exact hrest
    · rw [before _ (by omega), hbefore i hi]
    · rw [behind _ (by omega), hbehind i (by omega)]

theorem Ahead.ends {zone : Nat → Zone} (h : Ahead d zone t₀ s₀ t s)
    (hcalm : ∀ t s, Passed (readPass d) t₀ s₀ t s → 0 < t.len → Calm d (s.filepos / 1024) s) :
    ∃ t' s', Yields (readPass d) t s t' s' ∧ Ended d t s t' s' ∧ Keyed d s' := by
  generalize hn : t.len = n
  induction n using Nat.strongRecOn generalizing t s with
  | ind n ih =>
    by_cases hzero : t.len = 0
    · have hpass : readPass d 0 t s = some (.done t s) := by
        rw [readPass, if_pos hzero]
      refine ⟨t, s, .done hpass, ?_, h.keyed⟩
      obtain ⟨len, ret, mem⟩ := t
      obtain rfl : len = 0 := hzero
      exact .read (fun i hi => absurd hi (Nat.not_lt_zero i)) (fun _ _ => rfl) (fun _ _ => rfl) rfl ⟨rfl, rfl⟩
    · obtain ⟨flow, hpass, hstepped⟩ := h.stepped (Nat.pos_of_ne_zero hzero) hcalm 0
      cases hstepped with
      | unmapped keyed failed => exact ⟨t, _, .done hpass, .failed failed, keyed⟩
      | read pos le bytes before behind zone filepos keyed fine =>
        obtain ⟨t', s', hyields, hended, hkeyed⟩ := ih _ (by simp only; omega) (h.next le hpass zone filepos keyed) rfl
        exact ⟨t', s', hyields.next readPass_steady hpass, hended.after le bytes before behind zone filepos fine, hkeyed⟩
      | unread pos le zone filepos keyed failed =>
        obtain ⟨t', s', hyields, hended, hkeyed⟩ := ih _ (by simp only; omega) (h.next le hpass zone filepos keyed) rfl
        refine ⟨t', s', hyields.next readPass_steady hpass, ?_, hkeyed⟩
        cases hended with
        | read _ _ _ _ fine => exact .failed (failed.fine fine)
        | failed failed' => exact .failed (failed.failed failed')

end Runs

/-! ## Sessions -/

section Sessions
variable {d : Partition σ} {s : State σ} {q : Request}

theorem Keyed.seek (h : Keyed d s) (filepos : Nat) : Keyed d (s.seek filepos) := ⟨h.first, h.second⟩

/-- The answer to a request, and what is kept. -/
theorem Keyed.answers (h : Keyed d s) (hq : Meets d q s) :
    ∃ t s', Yields (readPass d) ⟨q.len, 0, q.mem⟩ (s.seek q.filepos) t s' ∧ Keyed d s' ∧
      Answered d q s (if s'.io.errnum ≠ .none then 0 else t.ret, t.mem, s') := by
  have hahead : Ahead d s.zone ⟨q.len, 0, q.mem⟩ (s.seek q.filepos) ⟨q.len, 0, q.mem⟩ (s.seek q.filepos) :=
    ⟨.first, rfl, hq.inside, hq.solid, h.seek _⟩
  obtain ⟨t, s', hyields, hended, hkeyed⟩ := hahead.ends hq.calm
  refine ⟨t, s', hyields, hkeyed, ?_⟩
  cases hended with
  | read bytes before behind filepos fine =>
    have herrnum : s'.io.errnum = .none := fine.errnum
    simp only [Nat.zero_add] at bytes behind ⊢
    rw [if_neg (Decidable.not_not.2 herrnum)]
    exact .delivered bytes behind herrnum fine.failures filepos
  | failed failed =>
    rw [if_pos failed.errnum]
    exact .failed failed.errnum (failed.counted rfl)

theorem Reached.keyed (h : Reached d s) : Keyed d s := by
  induction h with
  | opened zone datablock1 datablock2 => exact ⟨.inl rfl, .inl rfl⟩
  | read _ meets answer ih =>
    obtain ⟨t, s', hyields, hkeyed, -⟩ := ih.answers meets
    obtain ⟨⟨t', s''⟩, hrun, hanswer⟩ := Option.map_eq_some_iff.1 answer
    obtain ⟨-, rfl⟩ := hyields.unique readPass_steady ⟨_, hrun⟩
    obtain ⟨-, -, rfl⟩ : _ ∧ _ ∧ _ := by simpa using hanswer
    exact hkeyed

end Sessions

/-! ### A file of two blocks -/

def sampleState : State Nat := ⟨fun _ => 0, 0, 0, fun _ => 0, fun _ => 0, 0, ⟨.none, 0⟩, 0⟩

end TrustedGrub.Minix
