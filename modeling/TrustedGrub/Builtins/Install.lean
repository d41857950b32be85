import TrustedGrub.Boot.Start
import TrustedGrub.Drive.Bios

/-!
# The block list of `install`

`install_func` reads Stage 2 with a hook that is told each sector, and stores the list that `start.S`
loads it from in a copy of the first sector.
-/

namespace TrustedGrub.Builtins
open Disk (GrubError sectorSize)
open Drive (unsigned)
open TrustedGrub.Partition (Buffer le16 le32 putShort putLong)
open RunLength (Run Tiles)

/-- `stage2_first_buffer`, behind three other sectors. -/
def stage2FirstBuffer : Nat := 0x100000 + 3 * 512

/-- The loop that clears the list of an earlier installation, from `i = stage2FirstBuffer - 4 + 8 * n` on. -/
def clearList : Nat → Buffer → Except GrubError Buffer
  | 0, mem => if le32 mem (stage2FirstBuffer - 4) = 0 then .ok mem else .error .badVersion
  | n + 1, mem =>
    let i := stage2FirstBuffer - 4 + 8 * (n + 1)
    if le32 mem i = 0 then .ok mem
    else if le32 mem (i - 4) &&& 0x80000000 ≠ 0 ∨ 0xA00 ≤ le16 mem i ∨ le16 mem (i + 2) = 0 then .error .badVersion
    else clearList n (putLong (putLong mem i 0) (i - 4) 0)

/-- What the hook is told: a sector, and which bytes of it. -/
abbrev Call := Int × Int × Int

/-- The variables of the hook. `installlist` is where the count of the last entry lies. -/
structure Blocklist where
  mem : Buffer
  installlist : Nat
  installaddr : Nat
  lastLength : Int
  errnum : GrubError

/-- An entry for the sector is made. -/
def Blocklist.newEntry (s : Blocklist) (sector : Int) : Blocklist :=
  let installlist := s.installlist - 8
  if le32 s.mem (installlist - 8) ≠ 0 then { s with installlist, errnum := .wontFit }
  else
    { s with
      installlist
      mem := putLong (putShort s.mem (installlist + 2) (s.installaddr >>> 4)) (installlist - 4) (unsigned sector) }

/-- `disk_read_blocklist_func`. -/
def Blocklist.diskRead (s : Blocklist) (call : Call) : Blocklist :=
  if call.2.1 ≠ 0 ∨ s.lastLength ≠ sectorSize then
    -- a data block that is not sector-aligned
    { s with errnum := .unaligned }
  else
    let s := { s with lastLength := call.2.2 }
    let s :=
      if (le32 s.mem (s.installlist - 4) + le16 s.mem s.installlist) % 2 ^ 32 ≠ unsigned call.1 ∨
          s.installlist = stage2FirstBuffer + sectorSize + 4 then s.newEntry call.1
      else s
    { s with mem := putShort s.mem s.installlist (le16 s.mem s.installlist + 1), installaddr := s.installaddr + 512 }

/-- `install_func`, where it makes the list: `mem` is the memory when the first sector has been read,
`installaddr` the address of Stage 2, and `calls` what the hook is told as the rest is read. -/
def installList (mem : Buffer) (installaddr : Nat) (calls : List Call) : Except GrubError Buffer :=
  match clearList 64 mem with
  | .error err => .error err
  | .ok mem =>
    let s := calls.foldl Blocklist.diskRead ⟨mem, stage2FirstBuffer + sectorSize + 4, installaddr + sectorSize, sectorSize, .none⟩
    if s.errnum = .none then .ok s.mem else .error s.errnum

/-- `stage2_first_buffer` as a sector. -/
def firstSector (mem : Buffer) : Buffer := fun i => mem (stage2FirstBuffer + i)

/-! ## The earlier list -/

variable {mem mem' : Buffer}

/-- The words of the entries that tell how many sectors there are and where they go. -/
def place (mem : Buffer) (n : Nat) : Nat := le32 mem (stage2FirstBuffer - 4 + 8 * n)

theorem place_congr {n : Nat} (h : ∀ x, stage2FirstBuffer - 4 + 8 * n ≤ x → x < stage2FirstBuffer + 8 * n → mem x = mem' x) :
    place mem n = place mem' n := by
  have hbase : stage2FirstBuffer = 0x100600 := rfl
  exact Partition.le32_congr fun x hlo hhi => h x hlo (by omega)

/-- What clearing the entries from `n` on down has come to. -/
structure Cleared (n : Nat) (mem mem' : Buffer) : Prop where
  free : place mem' n = 0
  above : ∀ x, stage2FirstBuffer + 8 * n ≤ x → mem' x = mem x
  /-- The first entry that is free ends the list. -/
  below : ∀ q ≤ n, place mem q = 0 → ∀ x < stage2FirstBuffer + 8 * q, mem' x = mem x

theorem clearList_cleared (n : Nat) : ∀ {mem mem' : Buffer}, clearList n mem = .ok mem' → Cleared n mem mem' := by
  have hbase : stage2FirstBuffer = 0x100600 := rfl
  induction n with
  | zero =>
    intro mem mem' h
    rw [clearList] at h
    split at h <;> cases h
    next hfree => exact ⟨hfree, fun _ _ => rfl, fun _ _ _ _ _ => rfl⟩
  | succ n ih =>
    intro mem mem' h
    rw [clearList] at h
    split at h
    next hfree =>
      cases h
      exact ⟨hfree, fun _ _ => rfl, fun _ _ _ _ _ => rfl⟩
    next hused =>
      split at h
      · cases h
      have hcleared := ih h
      have hlow : ∀ x < stage2FirstBuffer + 8 * n,
          putLong (putLong mem (stage2FirstBuffer - 4 + 8 * (n + 1)) 0) (stage2FirstBuffer - 4 + 8 * (n + 1) - 4) 0 x = mem x := by
        intro x hx
        rw [Partition.putLong_elsewhere (.inl (by omega)), Partition.putLong_elsewhere (.inl (by omega))]
      refine ⟨?_, fun x hx => ?_, fun q hq hfree x hx => ?_⟩
      · have hkept : place mem' (n + 1) = place (putLong (putLong mem (stage2FirstBuffer - 4 + 8 * (n + 1)) 0)
            (stage2FirstBuffer - 4 + 8 * (n + 1) - 4) 0) (n + 1) := place_congr fun x hlo _ => hcleared.above x (by omega)
        rw [hkept]
        unfold place
        rw [Partition.le32_congr fun x hlo _ => Partition.putLong_elsewhere (.inr (by omega))]
        exact Partition.le32_putLong (by decide)
      · rw [hcleared.above x (by omega), Partition.putLong_elsewhere (.inr (by omega)), Partition.putLong_elsewhere (.inr (by omega))]
      · rcases Nat.eq_or_lt_of_le hq with rfl | hlt
        · exact absurd hfree hused
        · have hfree' : place (putLong (putLong mem (stage2FirstBuffer - 4 + 8 * (n + 1)) 0)
              (stage2FirstBuffer - 4 + 8 * (n + 1) - 4) 0) q = 0 := by
            refine Eq.trans ?_ hfree
            exact place_congr fun y _ hy => hlow y (by omega)
          rw [hcleared.below q (by omega) hfree' x hx]
          exact hlow x (by omega)

/-! ## The new list -/

/-- The list that has been made of `n` sectors: `start` is the memory before, `addr` the address of the
first of them. -/
structure Built (start : Buffer) (addr : Nat) (s : Blocklist) (rs : List Run) (n : Nat) : Prop where
  address : s.installaddr = addr + 512 * n
  list : s.installlist + 8 * rs.length = stage2FirstBuffer + 516
  listed : Boot.Listed (firstSector s.mem) (addr / 16) rs
  below : ∀ x < stage2FirstBuffer + 512 - 8 * rs.length, s.mem x = start x
  free : ∀ j ≤ rs.length, place start (64 - j) = 0

variable {start : Buffer} {addr n : Nat} {s : Blocklist} {rs : List Run} {call : Call}

/-- `stage2_first_buffer` is read with an offset. -/
theorem le32_firstSector (mem : Buffer) (off : Nat) : le32 (firstSector mem) off = le32 mem (stage2FirstBuffer + off) := rfl

theorem le16_firstSector (mem : Buffer) (off : Nat) : le16 (firstSector mem) off = le16 mem (stage2FirstBuffer + off) := rfl

theorem place_eq (mem : Buffer) {j : Nat} (hj : j ≤ 63) : place mem (64 - j) = le32 (firstSector mem) (508 - 8 * j) := by
  have hbase : stage2FirstBuffer = 0x100600 := rfl
  rw [le32_firstSector]
  unfold place
  congr 1
  omega

theorem le16_of_le32 {buf : Buffer} {off : Nat} (h : le32 buf off = 0) : le16 buf off = 0 := by
  unfold le32 at h
  omega

/-- A sector that comes next makes the last entry longer. -/
theorem Built.longer {r : Run} (h : Built start addr s (r :: rs) n) (hroom : rs.length ≤ 62) (hcount : r.count < 2 ^ 15) :
    Built start addr { s with mem := putShort s.mem s.installlist (le16 s.mem s.installlist + 1), installaddr := s.installaddr + 512 }
      ({ r with count := r.count + 1 } :: rs) (n + 1) := by
  have hbase : stage2FirstBuffer = 0x100600 := rfl
  have hlist := h.list
  have haddress := h.address
  rw [List.length_cons] at hlist
  obtain ⟨hentry, hlisted⟩ := h.listed
  have hat : s.installlist = stage2FirstBuffer + (504 - 8 * rs.length + 4) := by omega
  have hold : le16 s.mem s.installlist = r.count := by
    rw [hat]
    exact hentry.count
  rw [hold]
  constructor
  case address => show s.installaddr + 512 = _; omega
  case list => exact h.list
  case free => exact h.free
  case below =>
    intro x hx
    rw [← h.below x hx]
    rw [List.length_cons] at hx
    exact Partition.putShort_elsewhere (.inl (by omega))
  case listed =>
    refine ⟨⟨?_, ?_, ?_⟩, ?_⟩
    · rw [← hentry.start]
      exact Partition.le32_congr fun x hlo hhi => Partition.putShort_elsewhere (.inl (by omega))
    · rw [le16_firstSector, hat, Partition.le16_putShort, Nat.mod_eq_of_lt (show r.count + 1 < 0x10000 by omega)]
    · rw [← hentry.segment]
      exact Partition.le16_congr fun x hlo hhi => Partition.putShort_elsewhere (.inr (by omega))
    · exact hlisted.congr (by omega) fun x hlo hhi => Partition.putShort_elsewhere (.inr (by omega))

/-- The memory when an entry of one sector has been made. -/
def enteredAt (mem : Buffer) (i sector segment : Nat) : Buffer :=
  let mem := putLong (putShort mem (i + 2) segment) (i - 4) sector
  putShort mem i (le16 mem i + 1)

theorem enteredAt_elsewhere {i sector segment x : Nat} (hi : 4 ≤ i) (h : x < i - 4 ∨ i + 4 ≤ x) :
    enteredAt mem i sector segment x = mem x := by
  unfold enteredAt
  rw [Partition.putShort_elsewhere (by omega), Partition.putLong_elsewhere (by omega), Partition.putShort_elsewhere (by omega)]

/-- The entry tells the sector, where it goes, and that it is one. -/
theorem enteredAt_is {di sector segment first : Nat} (hsector : sector < 2 ^ 32) (hfree : le32 (firstSector mem) (di + 4) = 0) :
    Boot.EntryIs (firstSector (enteredAt mem (stage2FirstBuffer + (di + 4)) sector segment)) di ⟨sector, 1, first⟩ (segment % 2 ^ 16) := by
  have hbase : stage2FirstBuffer = 0x100600 := rfl
  have hcount : le16 (putLong (putShort mem (stage2FirstBuffer + (di + 4) + 2) segment) (stage2FirstBuffer + (di + 4) - 4) sector)
      (stage2FirstBuffer + (di + 4)) = 0 := by
    refine Eq.trans ?_ (le16_of_le32 hfree)
    refine Partition.le16_congr fun x hlo hhi => ?_
    rw [Partition.putLong_elsewhere (.inr (by omega)), Partition.putShort_elsewhere (.inl (by omega))]
  unfold enteredAt
  dsimp only
  rw [hcount]
  constructor
  case start =>
    rw [le32_firstSector, Partition.le32_congr fun x _ hhi => Partition.putShort_elsewhere (.inl (by omega)),
      show stage2FirstBuffer + (di + 4) - 4 = stage2FirstBuffer + di by omega]
    exact Partition.le32_putLong hsector
  case count =>
    rw [le16_firstSector]
    exact Partition.le16_putShort _ _ _
  case segment =>
    rw [le16_firstSector, Partition.le16_congr fun x hlo _ => Partition.putShort_elsewhere (.inr (by omega)),
      Partition.le16_congr fun x hlo _ => Partition.putLong_elsewhere (.inr (by omega)),
      show stage2FirstBuffer + (di + 4) + 2 = stage2FirstBuffer + (di + 6) by omega]
    exact Partition.le16_putShort _ _ _

/-- Another sector makes an entry of its own, in the first place that is free. -/
theorem Built.another (h : Built start addr s rs n) {sector : Nat} (hsector : sector < 2 ^ 32) {first : Nat} (hfirst : first = n)
    (hroom : rs.length ≤ 62) (hfree : place start (63 - rs.length) = 0) {s' : Blocklist}
    (hmem : s'.mem = enteredAt s.mem (s.installlist - 8) sector (s.installaddr >>> 4)) (hlist : s'.installlist = s.installlist - 8)
    (haddr : s'.installaddr = s.installaddr + 512) : Built start addr s' (⟨sector, 1, first⟩ :: rs) (n + 1) := by
  have hbase : stage2FirstBuffer = 0x100600 := rfl
  have hwas := h.list
  have haddress := h.address
  have hat : s.installlist - 8 = stage2FirstBuffer + (504 - 8 * rs.length + 4) := by omega
  rw [hat] at hmem hlist
  constructor
  case address =>
    rw [haddr, haddress]
    omega
  case list =>
    rw [List.length_cons]
    omega
  case free =>
    intro j hj
    rw [List.length_cons] at hj
    rcases Nat.eq_or_lt_of_le hj with rfl | hlt
    · rw [show 64 - (rs.length + 1) = 63 - rs.length by omega]
      exact hfree
    · exact h.free j (by omega)
  case below =>
    intro x hx
    rw [List.length_cons] at hx
    rw [hmem, enteredAt_elsewhere (by omega) (.inl (by omega))]
    exact h.below x (by omega)
  case listed =>
    rw [hmem]
    refine ⟨?_, h.listed.congr (by omega) fun x hlo hhi => enteredAt_elsewhere (by omega) (.inr (by omega))⟩
    have hnow : le32 (firstSector s.mem) (504 - 8 * rs.length + 4) = 0 := by
      have hzero := h.free rs.length (Nat.le_refl _)
      rw [place_eq start (by omega)] at hzero
      refine Eq.trans ?_ hzero
      rw [show 504 - 8 * rs.length + 4 = 508 - 8 * rs.length by omega]
      exact Partition.le32_congr fun x hlo hhi => h.below _ (by omega)
    have hentry : Boot.EntryIs _ _ ⟨sector, 1, first⟩ ((s.installaddr >>> 4) % 2 ^ 16) := enteredAt_is hsector hnow
    have hsegment : (s.installaddr >>> 4) % 2 ^ 16 = (addr / 16 + 32 * first) % 2 ^ 16 := by
      rw [Nat.shiftRight_eq_div_pow, haddress, hfirst]
      omega
    rw [hsegment] at hentry
    exact hentry

/-- Entries that are free from the top down lie above the code. -/
def Floor (start : Buffer) (code : Nat) : Prop := 8 ≤ code ∧ ∀ m, (∀ j ≤ m, place start (64 - j) = 0) → code + 8 * m ≤ 508

theorem Floor.room {code : Nat} (h : Floor start code) (hbuilt : Built start addr s rs n) : rs.length ≤ 62 := by
  have hcode := h.1
  have hfits := h.2 rs.length hbuilt.free
  omega

theorem unsigned_lt (n : Int) : unsigned n < 2 ^ 32 := by
  unfold unsigned
  omega

/-- An error is not taken back. -/
theorem diskRead_errnum (h : (s.diskRead call).errnum = .none) : s.errnum = .none := by
  unfold Blocklist.diskRead Blocklist.newEntry at h
  dsimp only at h
  split at h
  · cases h
  split at h
  · split at h
    · cases h
    · exact h
  · exact h

/-- The hook asks whether the sector comes next after the last entry. -/
theorem Built.next {r : Run} (h : Built start addr s (r :: rs) n) (hroom : rs.length ≤ 62) :
    (le32 s.mem (s.installlist - 4) + le16 s.mem s.installlist) % 2 ^ 32 = r.next (2 ^ 32) := by
  have hbase : stage2FirstBuffer = 0x100600 := rfl
  have hlist := h.list
  rw [List.length_cons] at hlist
  have hentry := h.listed.1
  unfold Run.next
  rw [← hentry.start, ← hentry.count, le32_firstSector, le16_firstSector,
    show s.installlist - 4 = stage2FirstBuffer + (504 - 8 * rs.length) by omega,
    show s.installlist = stage2FirstBuffer + (504 - 8 * rs.length + 4) by omega]

/-- **A sector that the hook is told** is added to the runs of the list. -/
theorem Built.diskRead {code : Nat} (hfloor : Floor start code) (h : Built start addr s rs n) (htiles : Tiles rs n) (hn : n < 2 ^ 15)
    (herr : (s.diskRead call).errnum = .none) :
    Built start addr (s.diskRead call) (RunLength.add (2 ^ 32) rs (unsigned call.1)) (n + 1) := by
  have hbase : stage2FirstBuffer = 0x100600 := rfl
  have hroom := hfloor.room h
  have hwas := h.list
  unfold Blocklist.diskRead at herr ⊢
  split at herr
  · cases herr
  next hsector =>
    rw [if_neg hsector]
    dsimp only at herr ⊢
    split at herr
    next hnew =>
      have hclear : le32 s.mem (s.installlist - 8 - 8) = 0 := by
        by_contra hused
        unfold Blocklist.newEntry at herr
        dsimp only at herr
        rw [if_pos hused] at herr
        cases herr
      have hfree : place start (63 - rs.length) = 0 := by
        refine Eq.trans ?_ hclear
        unfold place
        rw [show stage2FirstBuffer - 4 + 8 * (63 - rs.length) = s.installlist - 8 - 8 by omega]
        exact Partition.le32_congr fun x _ hhi => (h.below x (by omega)).symm
      rw [if_pos hnew]
      unfold Blocklist.newEntry
      dsimp only
      rw [if_neg (not_not.2 hclear)]
      cases rs with
      | nil =>
        cases htiles
        exact h.another (unsigned_lt _) rfl hroom hfree rfl rfl rfl
      | cons r rs =>
        rw [List.length_cons] at hroom hwas
        have hother : r.next (2 ^ 32) ≠ unsigned call.1 := by
          rw [← h.next (by omega)]
          rcases hnew with hne | hfirst
          · exact hne
          · have hfull : s.installlist = stage2FirstBuffer + 512 + 4 := hfirst
            omega
        rw [RunLength.add, if_neg hother]
        exact h.another (unsigned_lt _) htiles.2.1 (by rw [List.length_cons]; omega) hfree rfl rfl rfl
    next hlonger =>
      rw [if_neg hlonger]
      cases rs with
      | nil => exact absurd (.inr hwas) hlonger
      | cons r rs =>
        rw [List.length_cons] at hroom
        have hcount : r.count < 2 ^ 15 := by
          have hsum := htiles.2.1
          omega
        have hsame : r.next (2 ^ 32) = unsigned call.1 := by
          rw [← h.next (by omega)]
          exact not_not.1 fun hne => hlonger (.inl hne)
        rw [RunLength.add, if_pos hsame]
        have hlong := h.longer (by omega) hcount
        exact ⟨hlong.address, hlong.list, hlong.listed, hlong.below, hlong.free⟩

/-- The sectors that the hook has been told. -/
def toldSectors (calls : List Call) : List Nat := calls.map fun call => unsigned call.1

/-- A list that has been made without an error tells the sectors. -/
theorem built_run {code : Nat} (hfloor : Floor start code) (hstart : Built start addr s [] 0) (calls : List Call)
    (hn : calls.length < 2 ^ 15)
    (herr : (calls.foldl Blocklist.diskRead s).errnum = .none) :
    Built start addr (calls.foldl Blocklist.diskRead s) (RunLength.runs (2 ^ 32) (toldSectors calls)) calls.length := by
  induction calls using List.reverseRecOn with
  | nil => exact hstart
  | append_singleton calls call ih =>
    rw [List.length_append, List.length_singleton] at hn ⊢
    rw [List.foldl_append] at herr ⊢
    have hbuilt := ih (by omega) (diskRead_errnum herr)
    have htiles := RunLength.runs_tiles (w := 2 ^ 32) (toldSectors calls)
    rw [toldSectors, List.length_map] at htiles
    rw [toldSectors, List.map_append, List.map_singleton, RunLength.runs_concat]
    exact hbuilt.diskRead hfloor htiles (by omega) herr

/-! ## The first sector of Stage 2 -/

/-- A first sector as `start.S` lays it out: `code` bytes that do not end in zeros, and behind them
the list, which ends with an entry that is free. -/
structure Stage2Image (sect : Buffer) (code : Nat) : Prop where
  starts : 8 ≤ code
  ends : ∀ p < code, code ≤ p + 8 → le32 sect p ≠ 0
  free : ∃ q, code + 8 * q ≤ 508 ∧ le32 sect (508 - 8 * q) = 0

/-- The earlier list is cleared, and nothing of the code. -/
theorem Stage2Image.cleared {code : Nat} (h : Stage2Image (firstSector mem) code) (hclear : Cleared 64 mem start) :
    Floor start code ∧ ∀ i < code + 4, firstSector start i = firstSector mem i := by
  have hcode := h.starts
  obtain ⟨q, hfits, hfree⟩ := h.free
  rw [← place_eq mem (by omega)] at hfree
  have hkept : ∀ i < code + 4, firstSector start i = firstSector mem i := fun i hi =>
    hclear.below (64 - q) (by omega) hfree _ (by omega)
  refine ⟨⟨hcode, fun m => ?_⟩, hkept⟩
  induction m with
  | zero =>
    intro _
    omega
  | succ m ih =>
    intro hfrees
    have hroom := ih fun j hj => hfrees j (by omega)
    by_contra hlow
    have hzero := hfrees (m + 1) (Nat.le_refl _)
    rw [place_eq start (by omega)] at hzero
    refine h.ends (508 - 8 * (m + 1)) (by omega) (by omega) (Eq.trans ?_ hzero)
    exact Partition.le32_congr fun x hlo hhi => (hkept x (by omega)).symm

/-! ## What is loaded -/

variable {most : Nat → Nat} {code : Nat}

/-- `start.S` loads the sectors, in their order and one behind the other, from a list that ends in a
free entry and leaves the code alone. -/
structure Expanded (most : Nat → Nat) (code : Nat) (calls : List Call) (read sect : Buffer) : Prop where
  sectors : (Boot.load most sect).map Boot.Loaded.sector = toldSectors calls
  consecutive : ∃ a, ∀ (k : Nat) (l : Boot.Loaded), (Boot.load most sect)[k]? = some l → ∀ byte < 512, l.address byte = a + 512 * k + byte
  terminated : ∃ m, (∀ j < m, le16 sect (508 - 8 * j) ≠ 0) ∧ le32 sect (508 - 8 * m) = 0 ∧ code + 8 * m ≤ 508
  kept : ∀ i < code, sect i = read i

/-- What is known when a list has been installed: what the memory was once the earlier list was cleared. -/
theorem installList_built {installaddr : Nat} {calls : List Call} (himage : Stage2Image (firstSector mem) code)
    (h : installList mem installaddr calls = .ok mem') (hn : calls.length < 2 ^ 15) :
    ∃ s start, s.mem = mem' ∧ Floor start code ∧ (∀ i < code + 4, firstSector start i = firstSector mem i) ∧
      Built start (installaddr + 512) s (RunLength.runs (2 ^ 32) (toldSectors calls)) calls.length := by
  unfold installList at h
  split at h
  · cases h
  next start hstart =>
    have hclear := clearList_cleared 64 hstart
    obtain ⟨hfloor, hkept⟩ := himage.cleared hclear
    dsimp only at h
    split at h
    next herr =>
      cases h
      refine ⟨_, start, rfl, hfloor, hkept, built_run hfloor ⟨rfl, rfl, trivial, fun _ _ => rfl, fun j hj => ?_⟩ calls hn herr⟩
      obtain rfl : j = 0 := Nat.le_zero.1 hj
      exact hclear.free
    · cases h

/-- What is loaded one behind the other below 1 MB is not too long. -/
theorem Expanded.short {calls : List Call} {read sect : Buffer} (h : Expanded most code calls read sect) : calls.length ≤ 2048 := by
  have hlength : (Boot.load most sect).length = calls.length := by
    rw [← List.length_map (f := Boot.Loaded.sector), h.sectors, toldSectors, List.length_map]
  obtain ⟨a, hat⟩ := h.consecutive
  by_contra hlong
  have hlast : calls.length - 1 < (Boot.load most sect).length := by omega
  have haddress := hat _ _ (List.getElem?_eq_getElem hlast) 511 (by decide)
  unfold Boot.Loaded.address at haddress
  omega

/-- **The list is right exactly when Stage 2 ends below 1 MB**: the segment of an entry is not checked. -/
theorem installList_expanded_iff (hmost : Boot.ReadLimit most) (himage : Stage2Image (firstSector mem) code) (installaddr : Nat)
    (calls : List Call)
    (h : installList mem installaddr calls = .ok mem') :
    Expanded most code calls (firstSector mem) (firstSector mem') ↔
      16 * ((installaddr + 512) / 16 % 2 ^ 16) + 512 * calls.length ≤ 2 ^ 20 := by
  have htiles := RunLength.runs_tiles (w := 2 ^ 32) (toldSectors calls)
  rw [toldSectors, List.length_map, ← toldSectors] at htiles
  constructor
  · intro hexpanded
    have hshort := hexpanded.short
    obtain ⟨s, start, rfl, -, -, hbuilt⟩ := installList_built himage h (by omega)
    rcases Nat.eq_zero_or_pos calls.length with hnone | hsome
    · omega
    obtain ⟨l, ls, hload, hsegment, hoffset⟩ := Boot.load_first hmost hbuilt.listed htiles hsome (by omega)
    obtain ⟨a, hat⟩ := hexpanded.consecutive
    have hlength : (Boot.load most (firstSector s.mem)).length = calls.length := by
      rw [← List.length_map (f := Boot.Loaded.sector), hexpanded.sectors, toldSectors, List.length_map]
    have hlast : calls.length - 1 < (Boot.load most (firstSector s.mem)).length := by omega
    have hend := hat _ _ (List.getElem?_eq_getElem hlast) 511 (by decide)
    have hbegin := hat 0 l (by rw [hload]; rfl) 0 (by decide)
    unfold Boot.Loaded.address at hend hbegin
    rw [hsegment, hoffset] at hbegin
    omega
  · intro hfits
    obtain ⟨s, start, rfl, hfloor, hkept, hbuilt⟩ := installList_built himage h (by omega)
    generalize hrs : RunLength.runs (2 ^ 32) (toldSectors calls) = rs at hbuilt htiles
    have hbase : stage2FirstBuffer = 0x100600 := rfl
    have hroom := hfloor.2 rs.length hbuilt.free
    have hcode := hfloor.1
    have hend : le32 (firstSector s.mem) (508 - 8 * rs.length) = 0 := by
      have hfree := hbuilt.free rs.length (Nat.le_refl _)
      rw [place_eq start (by omega)] at hfree
      refine Eq.trans ?_ hfree
      exact Partition.le32_congr fun x hlo hhi => hbuilt.below _ (by omega)
    obtain ⟨ls, hload, hlaid⟩ := Boot.load_listed hmost rs hbuilt.listed htiles (by omega) hfits
    have hstop : Boot.bootloop most (firstSector s.mem) (64 - rs.length) = [] := by
      rw [show 64 - rs.length = 63 - rs.length + 1 by omega, Boot.bootloop, show 8 * (63 - rs.length) + 4 = 508 - 8 * rs.length by omega,
        if_pos (le16_of_le32 hend)]
    rw [hstop, List.append_nil] at hload
    have hsectors (x : Nat) (hx : x ∈ toldSectors calls) : x < 2 ^ 32 := by
      obtain ⟨call, -, rfl⟩ := List.mem_map.1 hx
      exact unsigned_lt _
    rw [← hrs, RunLength.runs_items _ hsectors] at hlaid
    constructor
    case sectors =>
      rw [hload]
      exact hlaid.sectors
    case consecutive =>
      rw [hload]
      exact ⟨_, fun k l hl byte hbyte => hlaid.address hl hbyte⟩
    case terminated => exact ⟨rs.length, hbuilt.listed.used htiles (by omega), hend, hroom⟩
    case kept =>
      intro i hi
      rw [← hkept i (by omega)]
      exact hbuilt.below _ (by omega)

/-- A first sector with 400 bytes of code, and no list. -/
def bareImage : Buffer := fun x => if x < stage2FirstBuffer + 400 then 0xC3 else 0

theorem bareImage_image : Stage2Image (firstSector bareImage) 400 where
  starts := by decide
  ends p hp _ := by
    have hbyte : firstSector bareImage p = 0xC3 := if_pos (Nat.add_lt_add_left hp _)
    unfold le32 le16
    rw [hbyte]
    show 195 + 0x100 * _ + 0x10000 * _ ≠ 0
    omega
  free := ⟨0, by decide, by decide⟩

/-- Two pieces of a disk. -/
def twoPieces : List Call := [(100, 0, 512), (101, 0, 512), (7, 0, 100)]

theorem installList_expanded_iff_twoPieces : ∃ mem', installList bareImage 0x8000 twoPieces = .ok mem' ∧
    (Expanded Boot.lbaMost 400 twoPieces (firstSector bareImage) (firstSector mem') ↔
      16 * ((0x8000 + 512) / 16 % 2 ^ 16) + 512 * twoPieces.length ≤ 2 ^ 20) := by
  have hdone : (installList bareImage 0x8000 twoPieces).isOk = true := by decide
  cases hrun : installList bareImage 0x8000 twoPieces with
  | error err =>
    rw [hrun] at hdone
    cases hdone
  | ok mem' => exact ⟨mem', rfl, installList_expanded_iff Boot.lbaMost_reads bareImage_image 0x8000 twoPieces hrun⟩

/-- Two sectors, the first of which ends at 1 MB. -/
def atTop : List Call := [(100, 0, 512), (200, 0, 512)]

/-- The segment of the second one is 0x10000, of which 0 is stored: it is loaded over the interrupt vectors. -/
theorem segment_overflows : ∃ mem', installList bareImage 0xFFC00 atTop = .ok mem' ∧
    ¬ Expanded Boot.lbaMost 400 atTop (firstSector bareImage) (firstSector mem') := by
  have hdone : (installList bareImage 0xFFC00 atTop).toOption.map (fun mem' =>
      (Boot.load Boot.lbaMost (firstSector mem')).map fun l => l.address 0) = some [0xFFE00, 0] := by decide
  cases hrun : installList bareImage 0xFFC00 atTop with
  | error err =>
    rw [hrun] at hdone
    cases hdone
  | ok mem' =>
    rw [hrun] at hdone
    refine ⟨mem', rfl, fun h => ?_⟩
    have haddresses : (Boot.load Boot.lbaMost (firstSector mem')).map (fun l => l.address 0) = [0xFFE00, 0] := Option.some.inj hdone
    obtain ⟨a, hat⟩ := h.consecutive
    generalize Boot.load Boot.lbaMost (firstSector mem') = ls at haddresses hat
    obtain ⟨l, ls, rfl, hfirst, hrest⟩ := List.map_eq_cons_iff.1 haddresses
    obtain ⟨l', ls, rfl, hsecond, -⟩ := List.map_eq_cons_iff.1 hrest
    have hbegin := hat 0 l rfl 0 (by decide)
    have hnext := hat 1 l' rfl 0 (by decide)
    omega

end TrustedGrub.Builtins
