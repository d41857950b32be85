import TrustedGrub.Disk.BlockName

/-!
# Blocks of an ext2 file

`ext2fs_block_map` of `fsys_ext2fs.c`. The pointers to a file's blocks are in its inode,
those beyond the first twelve behind one to three levels of blocks of pointers. Two such
blocks are kept between requests, under the keys `mapblock1` and `mapblock2`.
-/

namespace TrustedGrub.Ext2
open Fips180 (Word)
open Disk (GrubError)

/-- `EXT2_NDIR_BLOCKS`. -/
def ndirBlocks : Nat := 12

/-- The buffers for blocks of pointers, `DATABLOCK1` and `DATABLOCK2`. -/
inductive Buffer where
  | datablock1
  | datablock2
  deriving DecidableEq

/-- A mounted file system, and the inode of a file. Blocks have at most 8 KiB: the buffers for
larger ones reach into the track buffer, which every read goes through. -/
structure Fs (σ : Type) where
  /-- `EXT2_ADDR_PER_BLOCK_BITS`. -/
  addrBits : Nat
  addrBits_le : addrBits ≤ 11
  /-- `INODE->i_block`. -/
  iBlock : Nat → Word
  /-- The blocks as tables of pointers. -/
  image : Word → Nat → Word
  /-- `devread` of a block: `none` delivers it, `some` is what a failure leaves in the buffer. -/
  devread : σ → Word → (Nat → Word) → Option (Nat → Word) × σ

structure State (σ : Type) where
  errnum : GrubError
  mapblock1 : Int
  mapblock2 : Word
  data : Buffer → Nat → Word
  dev : σ
  /-- The reads that have failed so far. No code reads this: it is the history. -/
  failures : Nat

variable {σ : Type}

/-- `EXT2_ADDR_PER_BLOCK`. -/
def Fs.addrPerBlock (fs : Fs σ) : Nat := 2 ^ fs.addrBits

/-- A read into a buffer has been answered. -/
def State.answered (fs : Fs σ) (s : State σ) (fsblock : Word) (buffer : Buffer) : Option (Nat → Word) × σ → Bool × State σ
  | (none, dev) => (true, { s with data := Function.update s.data buffer (fs.image fsblock), dev := dev })
  | (some left, dev) =>
    (false, { s with data := Function.update s.data buffer left, dev := dev, failures := s.failures + 1 })

/-- `ext2_rdfsb`. -/
def rdfsb (fs : Fs σ) (s : State σ) (fsblock : Word) (buffer : Buffer) : Bool × State σ :=
  s.answered fs fsblock buffer (fs.devread s.dev fsblock (s.data buffer))

/-- `mapblock1 != key && !ext2_rdfsb (INODE->i_block[...], DATABLOCK1)`, the other way round. -/
def load1 (fs : Fs σ) (s : State σ) (key : Nat) : Bool × State σ :=
  if s.mapblock1 ≠ key then rdfsb fs s (fs.iBlock (ndirBlocks + key - 1)) .datablock1 else (true, s)

/-- `bnum != mapblock2 && !ext2_rdfsb (bnum, DATABLOCK2)`, the other way round. -/
def load2 (fs : Fs σ) (s : State σ) (bnum : Word) : Bool × State σ :=
  if bnum ≠ s.mapblock2 then rdfsb fs s bnum .datablock2 else (true, s)

/-- `errnum = ERR_FSYS_CORRUPT; return -1;` -/
def State.corrupt (s : State σ) : Word × State σ := (-1, { s with errnum := .fsysCorrupt })

/-- A file's block through the single indirect block. -/
def mapSingle (fs : Fs σ) (s : State σ) (logical : Nat) : Word × State σ :=
  let (ok, s) := load1 fs s 1
  if !ok then s.corrupt
  else (s.data .datablock1 logical, { s with mapblock1 := 1 })

/-- Through the double indirect block. -/
def mapDouble (fs : Fs σ) (s : State σ) (logical : Nat) : Word × State σ :=
  let (ok, s) := load1 fs s 2
  if !ok then s.corrupt
  else
    let s := { s with mapblock1 := 2 }
    let bnum := s.data .datablock1 (logical >>> fs.addrBits)
    let (ok, s) := load2 fs s bnum
    if !ok then s.corrupt
    else (s.data .datablock2 (logical &&& (fs.addrPerBlock - 1)), { s with mapblock2 := bnum })

/-- Through the triple indirect block. -/
def mapTriple (fs : Fs σ) (s : State σ) (logical : Nat) : Word × State σ :=
  let (ok, s) := load1 fs { s with mapblock2 := -1 } 3
  if !ok then s.corrupt
  else
    let s := { s with mapblock1 := 3 }
    let (ok, s) := rdfsb fs s (s.data .datablock1 (logical >>> (fs.addrBits * 2))) .datablock2
    if !ok then s.corrupt
    else
      let (ok, s) := rdfsb fs s (s.data .datablock2 (logical >>> fs.addrBits &&& (fs.addrPerBlock - 1))) .datablock2
      if !ok then s.corrupt
      else (s.data .datablock2 (logical &&& (fs.addrPerBlock - 1)), s)

/-- `ext2fs_block_map`. -/
def blockMap (fs : Fs σ) (s : State σ) (logicalBlock : Nat) : Word × State σ :=
  if logicalBlock < ndirBlocks then (fs.iBlock logicalBlock, s)
  else
    let logicalBlock := logicalBlock - ndirBlocks
    if logicalBlock < fs.addrPerBlock then mapSingle fs s logicalBlock
    else
      let logicalBlock := logicalBlock - fs.addrPerBlock
      if logicalBlock < 1 <<< (fs.addrBits * 2) then mapDouble fs s logicalBlock
      else mapTriple fs s (logicalBlock - 1 <<< (fs.addrBits * 2))

/-! ## The walk without buffers -/

/-- The pointer at the end of a path of indices. A zero on the way is a hole. -/
def follow (image : Word → Nat → Word) : Word → List Nat → Word
  | ptr, [] => ptr
  | ptr, i :: path => if ptr = 0 then 0 else follow image (image ptr i) path

/-- The pointer of the inode that leads to a block of the file, and the indices behind it,
with `n` pointers to a block. -/
def pathOf (n logicalBlock : Nat) : Nat × List Nat :=
  if logicalBlock < 12 then (logicalBlock, [])
  else if logicalBlock - 12 < n then (12, [logicalBlock - 12])
  else if logicalBlock - 12 - n < n ^ 2 then (13, [(logicalBlock - 12 - n) / n, (logicalBlock - 12 - n) % n])
  else (14, [(logicalBlock - 12 - n - n ^ 2) / n ^ 2, (logicalBlock - 12 - n - n ^ 2) / n % n, (logicalBlock - 12 - n - n ^ 2) % n])

/-- The pointer of the inode a path begins with. -/
def Fs.root (fs : Fs σ) (logicalBlock : Nat) : Word := fs.iBlock (pathOf fs.addrPerBlock logicalBlock).1

/-- Where a block of the file lies. -/
def walk (fs : Fs σ) (logicalBlock : Nat) : Word := follow fs.image (fs.root logicalBlock) (pathOf fs.addrPerBlock logicalBlock).2

/-- No pointer on the path is zero before the last one, and that one is not the number of
no block. -/
def Solid (image : Word → Nat → Word) : Word → List Nat → Prop
  | ptr, [] => ptr ≠ -1
  | ptr, i :: path => ptr ≠ 0 ∧ Solid image (image ptr i) path

instance Solid.decidable (image : Word → Nat → Word) : (ptr : Word) → (path : List Nat) → Decidable (Solid image ptr path)
  | ptr, [] => inferInstanceAs (Decidable (ptr ≠ -1))
  | ptr, i :: path =>
    have := Solid.decidable image (image ptr i) path
    inferInstanceAs (Decidable (ptr ≠ 0 ∧ Solid image (image ptr i) path))

/-- The blocks that a file can have. -/
def Fs.InReach (fs : Fs σ) (logicalBlock : Nat) : Prop :=
  logicalBlock < 12 + fs.addrPerBlock + fs.addrPerBlock ^ 2 + fs.addrPerBlock ^ 3

theorem follow_cons {image : Word → Nat → Word} {ptr : Word} {i : Nat} {path : List Nat} (h : ptr ≠ 0) :
    follow image ptr (i :: path) = follow image (image ptr i) path := if_neg h

/-! ## The blocks that are kept -/

/-- A buffer that has a key holds the block the key says. -/
structure Keyed (fs : Fs σ) (s : State σ) : Prop where
  first : s.mapblock1 = -1 ∨ ∃ key : Nat, s.mapblock1 = key ∧ s.data .datablock1 = fs.image (fs.iBlock (ndirBlocks + key - 1))
  second : s.mapblock2 = -1 ∨ s.data .datablock2 = fs.image s.mapblock2

/-- A read of the block, if it fails, leaves the buffer as it was. -/
def Fs.Spares (fs : Fs σ) (dev : σ) (fsblock : Word) (buffer : Nat → Word) : Prop :=
  ∀ left, (fs.devread dev fsblock buffer).1 = some left → left = buffer

/-- A block is in a buffer, and nothing else has changed but the device. -/
structure Supplied (fs : Fs σ) (s : State σ) (fsblock : Word) (buffer : Buffer) (s' : State σ) : Prop where
  held : s'.data buffer = fs.image fsblock
  other : ∀ b, b ≠ buffer → s'.data b = s.data b
  mapblock1 : s'.mapblock1 = s.mapblock1
  mapblock2 : s'.mapblock2 = s.mapblock2
  failures : s'.failures = s.failures
  errnum : s'.errnum = s.errnum

/-- The read of a block into a buffer has failed. -/
structure Missed (fs : Fs σ) (s : State σ) (fsblock : Word) (buffer : Buffer) (s' : State σ) : Prop where
  spared : fs.Spares s.dev fsblock (s.data buffer) → s'.data buffer = s.data buffer
  other : ∀ b, b ≠ buffer → s'.data b = s.data b
  mapblock1 : s'.mapblock1 = s.mapblock1
  mapblock2 : s'.mapblock2 = s.mapblock2
  failures : s.failures < s'.failures

theorem rdfsb_cases (fs : Fs σ) (s : State σ) (fsblock : Word) (buffer : Buffer) :
    ∃ s', s'.dev = (fs.devread s.dev fsblock (s.data buffer)).2 ∧
      (rdfsb fs s fsblock buffer = (true, s') ∧ Supplied fs s fsblock buffer s' ∨
        rdfsb fs s fsblock buffer = (false, s') ∧ Missed fs s fsblock buffer s') := by
  unfold rdfsb
  cases hread : fs.devread s.dev fsblock (s.data buffer) with
  | mk outcome dev =>
    cases outcome with
    | none =>
      refine ⟨_, ?_, .inl ⟨rfl, ?_⟩⟩
      · rfl
      · constructor <;> simp +contextual [Function.update_of_ne]
    | some left =>
      refine ⟨_, ?_, .inr ⟨rfl, ?_⟩⟩
      · rfl
      · constructor
        case spared =>
          intro h
          simpa using h left (by rw [hread])
        all_goals simp +contextual [Function.update_of_ne]

/-- The device after a block has been fetched that the buffer may hold already. -/
def Fs.fetched (fs : Fs σ) (s : State σ) (held : Prop) [Decidable held] (fsblock : Word) (buffer : Buffer) : σ :=
  if held then s.dev else (fs.devread s.dev fsblock (s.data buffer)).2

theorem load1_cases {fs : Fs σ} {s : State σ} (hk : Keyed fs s) (key : Nat) :
    ∃ s', s'.dev = fs.fetched s (s.mapblock1 = key) (fs.iBlock (ndirBlocks + key - 1)) .datablock1 ∧
      (load1 fs s key = (true, s') ∧ Supplied fs s (fs.iBlock (ndirBlocks + key - 1)) .datablock1 s' ∨
        s.mapblock1 ≠ key ∧ load1 fs s key = (false, s') ∧ Missed fs s (fs.iBlock (ndirBlocks + key - 1)) .datablock1 s') := by
  unfold load1 Fs.fetched
  by_cases hkey : s.mapblock1 = key
  · have hheld : s.data .datablock1 = fs.image (fs.iBlock (ndirBlocks + key - 1)) := by
      obtain hnone | ⟨key', hkey', hdata⟩ := hk.first
      · omega
      · obtain rfl : key' = key := by omega
        exact hdata
    refine ⟨s, by simp [hkey], .inl ⟨by simp [hkey], hheld, ?_, rfl, rfl, rfl, rfl⟩⟩
    exact fun _ _ => rfl
  · obtain ⟨s', hdev, hcases⟩ := rdfsb_cases fs s (fs.iBlock (ndirBlocks + key - 1)) .datablock1
    refine ⟨s', by simpa [hkey] using hdev, ?_⟩
    rw [if_pos hkey]
    exact hcases.imp_right fun h => ⟨hkey, h⟩

theorem load2_cases {fs : Fs σ} {s : State σ} (hk : s.mapblock2 = -1 ∨ s.data .datablock2 = fs.image s.mapblock2) (bnum : Word) :
    ∃ s', (load2 fs s bnum = (true, s') ∧ (s.mapblock2 = -1 ∧ bnum = -1 ∧ s' = s ∨ Supplied fs s bnum .datablock2 s')) ∨
      s.mapblock2 ≠ bnum ∧ load2 fs s bnum = (false, s') ∧ Missed fs s bnum .datablock2 s' := by
  unfold load2
  by_cases hkey : bnum = s.mapblock2
  · refine ⟨s, .inl ⟨by simp [hkey], ?_⟩⟩
    rw [hkey]
    refine hk.imp (fun hnone => ⟨hnone, hnone, rfl⟩) fun hdata => ⟨hdata, fun _ _ => rfl, rfl, rfl, rfl, rfl⟩
  · obtain ⟨s', -, hcases⟩ := rdfsb_cases fs s bnum .datablock2
    refine ⟨s', ?_⟩
    rw [if_pos hkey]
    exact hcases.imp (fun h => ⟨h.1, .inr h.2⟩) fun h => ⟨Ne.symm hkey, h⟩

/-- How a request is answered: with the word, or with an error for a read that failed. -/
inductive Answered (s : State σ) (word : Word) : Word × State σ → Prop where
  | word {s' : State σ} (failures : s'.failures = s.failures) (errnum : s'.errnum = s.errnum) : Answered s word (word, s')
  | failed {s' : State σ} (failures : s.failures < s'.failures) : Answered s word s'.corrupt

theorem Supplied.keyed {fs : Fs σ} {s s' : State σ} {key : Nat} (hk : Keyed fs s)
    (hs : Supplied fs s (fs.iBlock (ndirBlocks + key - 1)) .datablock1 s') :
    Keyed fs { s' with mapblock1 := key } := by
  constructor
  case first => exact .inr ⟨key, rfl, hs.held⟩
  case second =>
    rw [hs.mapblock2, hs.other _ (by decide)]
    exact hk.second

/-- A failed read may spoil a buffer that has no key, or is spared. -/
theorem Missed.keyed_first {fs : Fs σ} {s s' : State σ} {fsblock : Word} (hk : Keyed fs s) (hm : Missed fs s fsblock .datablock1 s')
    (hsafe : s.mapblock1 = -1 ∨ fs.Spares s.dev fsblock (s.data .datablock1)) : Keyed fs s' := by
  constructor
  case first =>
    rw [hm.mapblock1]
    obtain hnone | hspares := hsafe
    · exact .inl hnone
    · rw [hm.spared hspares]
      exact hk.first
  case second =>
    rw [hm.mapblock2, hm.other _ (by decide)]
    exact hk.second

theorem Missed.keyed_second {fs : Fs σ} {s s' : State σ} {fsblock : Word} (hk : Keyed fs s) (hm : Missed fs s fsblock .datablock2 s')
    (hsafe : s.mapblock2 = -1 ∨ fs.Spares s.dev fsblock (s.data .datablock2)) : Keyed fs s' := by
  constructor
  case first =>
    rw [hm.mapblock1, hm.other _ (by decide)]
    exact hk.first
  case second =>
    rw [hm.mapblock2]
    obtain hnone | hspares := hsafe
    · exact .inl hnone
    · rw [hm.spared hspares]
      exact hk.second

theorem Keyed.errnum {fs : Fs σ} {s : State σ} (hk : Keyed fs s) : Keyed fs s.corrupt.2 := ⟨hk.first, hk.second⟩

/-! ## The requests -/

variable {fs : Fs σ} {s : State σ} {logical : Nat}

/-- `DATABLOCK1` has no key or the one asked for, or the read for it leaves it alone if it fails. -/
def Fs.Safe1 (fs : Fs σ) (s : State σ) (key : Nat) : Prop :=
  s.mapblock1 = -1 ∨ s.mapblock1 = key ∨ fs.Spares s.dev (fs.iBlock (ndirBlocks + key - 1)) (s.data .datablock1)

theorem Fs.Safe1.unless (h : fs.Safe1 s key) (hkey : s.mapblock1 ≠ key) :
    s.mapblock1 = -1 ∨ fs.Spares s.dev (fs.iBlock (ndirBlocks + key - 1)) (s.data .datablock1) :=
  h.imp_right fun h => h.resolve_left hkey

theorem mapSingle_spec (hk : Keyed fs s) :
    Answered s (fs.image (fs.iBlock 12) logical) (mapSingle fs s logical) ∧
      ((mapSingle fs s logical).2.failures = s.failures ∨ fs.Safe1 s 1 → Keyed fs (mapSingle fs s logical).2) := by
  obtain ⟨s₁, -, ⟨hload, hs⟩ | ⟨hkey, hload, hm⟩⟩ := load1_cases hk 1
  · have hword : s₁.data .datablock1 = fs.image (fs.iBlock 12) := hs.held
    simp only [mapSingle, hload, Bool.not_true, Bool.false_eq_true, if_false, hword]
    exact ⟨.word hs.failures hs.errnum, fun _ => hs.keyed hk⟩
  · simp only [mapSingle, hload, Bool.not_false, if_true]
    refine ⟨.failed hm.failures, fun hsafe => (hm.keyed_first hk ?_).errnum⟩
    exact (hsafe.resolve_left (Nat.ne_of_gt hm.failures)).unless hkey

/-- `DATABLOCK2` has no key or the one asked for, or the read for it, made after the one for
`DATABLOCK1`, leaves it alone if it fails. -/
def Fs.Safe2 (fs : Fs σ) (s : State σ) (bnum : Word) : Prop :=
  s.mapblock2 = -1 ∨ s.mapblock2 = bnum ∨
    fs.Spares (fs.fetched s (s.mapblock1 = (2 : Nat)) (fs.iBlock 13) .datablock1) bnum (s.data .datablock2)

theorem mapDouble_spec (hk : Keyed fs s) :
    ((s.mapblock2 = -1 → fs.image (fs.iBlock 13) (logical / fs.addrPerBlock) ≠ -1) →
      Answered s (fs.image (fs.image (fs.iBlock 13) (logical / fs.addrPerBlock)) (logical % fs.addrPerBlock)) (mapDouble fs s logical)) ∧
      ((mapDouble fs s logical).2.failures = s.failures ∨ fs.Safe1 s 2 ∧ fs.Safe2 s (fs.image (fs.iBlock 13) (logical / fs.addrPerBlock)) →
        Keyed fs (mapDouble fs s logical).2) := by
  have hmask : logical &&& (fs.addrPerBlock - 1) = logical % fs.addrPerBlock := Nat.and_two_pow_sub_one_eq_mod _ _
  have hshift : logical >>> fs.addrBits = logical / fs.addrPerBlock := Nat.shiftRight_eq_div_pow _ _
  obtain ⟨s₁, hdev, ⟨hload, hs⟩ | ⟨hkey, hload, hm⟩⟩ := load1_cases hk 2
  · have hk₁ : Keyed fs { s₁ with mapblock1 := 2 } := hs.keyed hk
    have hword : s₁.data .datablock1 = fs.image (fs.iBlock 13) := hs.held
    simp only [mapDouble, hload, Bool.not_true, Bool.false_eq_true, if_false, hword, hmask, hshift]
    generalize fs.image (fs.iBlock 13) (logical / fs.addrPerBlock) = bnum
    obtain ⟨s₂, ⟨hload₂, hs₂⟩ | ⟨hkey₂, hload₂, hm₂⟩⟩ := load2_cases hk₁.second bnum
    · simp only [hload₂, Bool.not_true, Bool.false_eq_true, if_false]
      constructor
      · intro hbnum
        obtain ⟨hkey, h, -⟩ | hs₂ := hs₂
        · exact absurd h (hbnum (hs.mapblock2.symm.trans hkey))
        · rw [hs₂.held]
          exact .word (hs₂.failures.trans hs.failures) (hs₂.errnum.trans hs.errnum)
      · intro _
        obtain ⟨-, rfl, rfl⟩ | hs₂ := hs₂
        · exact ⟨hk₁.first, .inl rfl⟩
        · constructor
          case first =>
            rw [hs₂.mapblock1, hs₂.other _ (by decide)]
            exact hk₁.first
          case second => exact .inr hs₂.held
    · simp only [hload₂, Bool.not_false, if_true]
      have hmore : s.failures < s₂.failures := hs.failures ▸ hm₂.failures
      refine ⟨fun _ => .failed hmore, fun hsafe => ?_⟩
      apply Keyed.errnum
      apply hm₂.keyed_second hk₁
      simp only [hs.mapblock2] at hkey₂ ⊢
      refine (hsafe.resolve_left (Nat.ne_of_gt hmore)).2.imp_right fun hsafe => ?_
      rw [hdev, hs.other _ (by decide)]
      exact hsafe.resolve_left hkey₂
  · simp only [mapDouble, hload, Bool.not_false, if_true]
    refine ⟨fun _ => .failed hm.failures, fun hsafe => (hm.keyed_first hk ?_).errnum⟩
    exact (hsafe.resolve_left (Nat.ne_of_gt hm.failures)).1.unless hkey

theorem mapTriple_spec (hk : Keyed fs s) :
    Answered s (fs.image (fs.image (fs.image (fs.iBlock 14) (logical / fs.addrPerBlock ^ 2)) (logical / fs.addrPerBlock % fs.addrPerBlock))
        (logical % fs.addrPerBlock)) (mapTriple fs s logical) ∧
      ((mapTriple fs s logical).2.failures = s.failures ∨ fs.Safe1 s 3 → Keyed fs (mapTriple fs s logical).2) := by
  have hmask (i : Nat) : i &&& (fs.addrPerBlock - 1) = i % fs.addrPerBlock := Nat.and_two_pow_sub_one_eq_mod _ _
  have hshift : logical >>> fs.addrBits = logical / fs.addrPerBlock := Nat.shiftRight_eq_div_pow _ _
  have hshift2 : logical >>> (fs.addrBits * 2) = logical / fs.addrPerBlock ^ 2 := by
    rw [Nat.shiftRight_eq_div_pow, pow_mul, Fs.addrPerBlock]
  have hk₀ : Keyed fs { s with mapblock2 := -1 } := ⟨hk.first, .inl rfl⟩
  obtain ⟨s₁, -, ⟨hload, hs⟩ | ⟨hkey, hload, hm⟩⟩ := load1_cases hk₀ 3
  · have hk₁ : Keyed fs { s₁ with mapblock1 := 3 } := hs.keyed hk₀
    have hword : s₁.data .datablock1 = fs.image (fs.iBlock 14) := hs.held
    have hnone : s₁.mapblock2 = -1 := hs.mapblock2
    simp only [mapTriple, hload, Bool.not_true, Bool.false_eq_true, if_false, hword, hmask, hshift, hshift2]
    generalize fs.image (fs.iBlock 14) (logical / fs.addrPerBlock ^ 2) = upper
    obtain ⟨s₂, -, ⟨hload₂, hs₂⟩ | ⟨hload₂, hm₂⟩⟩ := rdfsb_cases fs { s₁ with mapblock1 := 3 } upper .datablock2
    · simp only [hload₂, Bool.not_true, Bool.false_eq_true, if_false, hs₂.held]
      have hk₂ : Keyed fs s₂ := by
        constructor
        case first =>
          rw [hs₂.mapblock1, hs₂.other _ (by decide)]
          exact hk₁.first
        case second => exact .inl (hs₂.mapblock2.trans hnone)
      generalize fs.image upper (logical / fs.addrPerBlock % fs.addrPerBlock) = lower
      obtain ⟨s₃, -, ⟨hload₃, hs₃⟩ | ⟨hload₃, hm₃⟩⟩ := rdfsb_cases fs s₂ lower .datablock2
      · simp only [hload₃, Bool.not_true, Bool.false_eq_true, if_false, hs₃.held]
        refine ⟨.word (hs₃.failures.trans (hs₂.failures.trans hs.failures)) (hs₃.errnum.trans (hs₂.errnum.trans hs.errnum)), fun _ => ?_⟩
        constructor
        case first =>
          rw [hs₃.mapblock1, hs₃.other _ (by decide)]
          exact hk₂.first
        case second => exact .inl (hs₃.mapblock2.trans (hs₂.mapblock2.trans hnone))
      · simp only [hload₃, Bool.not_false, if_true]
        refine ⟨.failed ?_, fun _ => (hm₃.keyed_second hk₂ (.inl (hs₂.mapblock2.trans hnone))).errnum⟩
        exact (hs₂.failures.trans hs.failures) ▸ hm₃.failures
    · simp only [hload₂, Bool.not_false, if_true]
      refine ⟨.failed ?_, fun _ => (hm₂.keyed_second hk₁ (.inl hnone)).errnum⟩
      exact hs.failures ▸ hm₂.failures
  · simp only [mapTriple, hload, Bool.not_false, if_true]
    refine ⟨.failed hm.failures, fun hsafe => (hm.keyed_first hk₀ ?_).errnum⟩
    exact Fs.Safe1.unless (hsafe.resolve_left (Nat.ne_of_gt hm.failures)) hkey

/-- The reads of a request that fail leave what is kept for others. (`mapTriple` gives up
`DATABLOCK2` before it reads.) -/
def Harmless (fs : Fs σ) (s : State σ) (logical : Nat) : Prop :=
  ndirBlocks ≤ logical →
    fs.Safe1 s ((pathOf fs.addrPerBlock logical).1 - 11) ∧
      ((pathOf fs.addrPerBlock logical).1 = 13 → fs.Safe2 s (fs.image (fs.iBlock 13) ((pathOf fs.addrPerBlock logical).2.headD 0)))

/-- The double indirect block does not say `-1` where that would pass for the key of
`DATABLOCK2`. -/
def Fs.KeyClear (fs : Fs σ) (s : State σ) (logical : Nat) : Prop :=
  (pathOf fs.addrPerBlock logical).1 = 13 → s.mapblock2 = -1 →
    fs.image (fs.iBlock 13) ((pathOf fs.addrPerBlock logical).2.headD 0) ≠ -1

theorem blockMap_spec (hk : Keyed fs s) :
    (Solid fs.image (fs.root logical) (pathOf fs.addrPerBlock logical).2 → fs.KeyClear s logical →
        Answered s (walk fs logical) (blockMap fs s logical)) ∧
      ((blockMap fs s logical).2.failures = s.failures ∨ Harmless fs s logical → Keyed fs (blockMap fs s logical).2) := by
  have hsquare : 1 <<< (fs.addrBits * 2) = fs.addrPerBlock ^ 2 := by
    rw [Nat.one_shiftLeft, pow_mul, Fs.addrPerBlock]
  simp only [blockMap, hsquare, walk, Fs.root, Fs.KeyClear, Harmless, ndirBlocks]
  by_cases hdirect : logical < 12
  · simp only [pathOf, if_pos hdirect]
    exact ⟨fun _ _ => .word rfl rfl, fun _ => hk⟩
  have hlevel : 12 ≤ logical := Nat.le_of_not_lt hdirect
  simp only [if_neg hdirect, hlevel, true_imp_iff]
  by_cases hsingle : logical - 12 < fs.addrPerBlock
  · simp only [pathOf, if_neg hdirect, if_pos hsingle]
    obtain ⟨hanswer, hkeyed⟩ := @mapSingle_spec _ _ _ (logical - 12) hk
    refine ⟨fun hsolid _ => ?_, fun hsafe => hkeyed (hsafe.imp_right fun h => h.1)⟩
    rwa [follow_cons hsolid.1]
  by_cases hdouble : logical - 12 - fs.addrPerBlock < fs.addrPerBlock ^ 2
  · simp only [pathOf, if_neg hdirect, if_neg hsingle, if_pos hdouble]
    obtain ⟨hanswer, hkeyed⟩ := @mapDouble_spec _ _ _ (logical - 12 - fs.addrPerBlock) hk
    refine ⟨fun hsolid hclear => ?_, fun hsafe => hkeyed (hsafe.imp_right fun h => ⟨h.1, h.2 trivial⟩)⟩
    obtain ⟨hroot, hupper, -⟩ := hsolid
    rw [follow_cons hroot, follow_cons hupper]
    exact hanswer (hclear trivial)
  · simp only [pathOf, if_neg hdirect, if_neg hsingle, if_neg hdouble]
    obtain ⟨hanswer, hkeyed⟩ := @mapTriple_spec _ _ _ (logical - 12 - fs.addrPerBlock - fs.addrPerBlock ^ 2) hk
    refine ⟨fun hsolid _ => ?_, fun hsafe => hkeyed (hsafe.imp_right fun h => h.1)⟩
    obtain ⟨hroot, hupper, hlower, -⟩ := hsolid
    rwa [follow_cons hroot, follow_cons hupper, follow_cons hlower]

/-- The states that requests for blocks of one file lead to. -/
inductive Reached (fs : Fs σ) : State σ → Prop where
  /-- `ext2fs_dir` has found the file's inode. -/
  | found {s : State σ} (mapblock1 : s.mapblock1 = -1) (mapblock2 : s.mapblock2 = -1) : Reached fs s
  | asked {s : State σ} {logical : Nat} (before : Reached fs s) (inReach : fs.InReach logical) (harmless : Harmless fs s logical) :
    Reached fs (blockMap fs s logical).2
  /-- `ext2fs_dir` reads a block of a directory into `DATABLOCK2`. -/
  | scanned {s : State σ} (before : Reached fs s) (map : Word) :
    Reached fs (rdfsb fs { s with mapblock2 := -1 } map .datablock2).2

theorem Reached.keyed (h : Reached fs s) : Keyed fs s := by
  induction h with
  | found mapblock1 mapblock2 => exact ⟨.inl mapblock1, .inl mapblock2⟩
  | asked _ _ harmless ih => exact (blockMap_spec ih).2 (.inr harmless)
  | @scanned s _ map ih =>
    have hk : Keyed fs { s with mapblock2 := -1 } := ⟨ih.first, .inl rfl⟩
    obtain ⟨s', -, ⟨hread, hs⟩ | ⟨hread, hm⟩⟩ := rdfsb_cases fs { s with mapblock2 := -1 } map .datablock2
    · rw [hread]
      constructor
      case first =>
        rw [hs.mapblock1, hs.other _ (by decide)]
        exact ih.first
      case second => exact .inl hs.mapblock2
    · rw [hread]
      exact hm.keyed_second hk (.inl rfl)

section Examples

theorem eight_le_eleven : 8 ≤ 11 := by decide

/-- An inode has just been found. -/
def found : State Nat := ⟨.none, -1, -1, fun _ _ => 0, 0, 0⟩

end Examples

end TrustedGrub.Ext2
