import TrustedGrub.Loader.ProgramHeaders

/-!
# `mbchk`

The checker for Multiboot kernels, and when its verdict agrees with `load_image`. The two look for
the header in different ways: `check_multiboot` takes the first magic number at any offset, and
`load_image` the first aligned header whose magic fields add up.
-/

namespace TrustedGrub.Util
open Fips180 (Byte)
open CharIo (Word)
open TrustedGrub.Partition (Buffer)
open Boot
open Loader (Call Machine)

/-- What is found out about the header. -/
inductive Verdict where
  /-- All checks passed. -/
  | passed
  /-- Bad checksum. -/
  | badChecksum
  /-- Non-zero is found in reserved flags. -/
  | reservedFlags
  /-- header_addr is less than load_addr. -/
  | headerAddr
  /-- load_addr is not less than load_end_addr. -/
  | loadEndAddr
  /-- load_end_addr is greater than bss_end_addr. -/
  | bssEndAddr
  /-- load_addr is greater than entry_addr. -/
  | entryBelow
  /-- load_end_addr is not greater than entry_addr. -/
  | entryBehind
  /-- Cannot be loaded at less than 1MB by GRUB. -/
  | below1mb
  deriving DecidableEq

/-- The checks of the fields. -/
def checkFields (mbh : MultibootHeader) : Verdict :=
  if mbh.magic + mbh.flags + mbh.checksum ≠ 0 then .badChecksum
  else if mbh.flags &&& ~~~0x00010003 ≠ 0 then .reservedFlags
  else if mbh.flags &&& 0x10000 ≠ 0 then
    if mbh.headerAddr < mbh.loadAddr then .headerAddr
    else if mbh.loadEndAddr ≠ 0 ∧ mbh.loadEndAddr ≤ mbh.loadAddr then .loadEndAddr
    else if mbh.bssEndAddr ≠ 0 ∧ mbh.bssEndAddr < mbh.loadEndAddr then .bssEndAddr
    else if mbh.entryAddr < mbh.loadAddr then .entryBelow
    else if mbh.loadEndAddr ≠ 0 ∧ mbh.loadEndAddr ≤ mbh.entryAddr then .entryBehind
    else if mbh.loadAddr < 0x100000 then .below1mb
    else .passed
  else .passed

/-- The first magic number, at an offset that leaves room for the address fields and a byte more. -/
def findMagic (buf : Buffer) : Option Nat := (List.range (8192 - 32)).find? fun i => word32 buf i = multibootMagic

/-- The bytes of a file, and behind them what was in the buffer before. -/
def fileBuffer (file : List Byte) (stack : Buffer) : Buffer := fun i => file.getD i (stack i)

/-- `check_multiboot`: the offset of the header and the verdict, or that there is none. Behind a file
that is shorter than the buffer is what was on the stack. -/
def checkMultiboot (file : List Byte) (stack : Buffer) : Option (Nat × Verdict) :=
  let buf := fileBuffer file stack
  (findMagic buf).map fun i => (i, checkFields (multibootHeader buf i))

/-! ## Agreement -/

/-- The header at offset `i` is one of the specification: the flags are defined ones, the address
fields fit together, and the kernel starts in what is loaded. -/
structure Conforms (mbh : MultibootHeader) (i : Nat) : Prop where
  flags : mbh.flags &&& ~~~0x00010007 = 0
  headerAddr : mbh.flags &&& 0x10000 ≠ 0 → mbh.loadAddr ≤ mbh.headerAddr ∧ (mbh.headerAddr - mbh.loadAddr).toNat ≤ i
  loadEndAddr : mbh.flags &&& 0x10000 ≠ 0 → mbh.loadEndAddr ≠ 0 → mbh.loadAddr < mbh.loadEndAddr
  bssEndAddr : mbh.flags &&& 0x10000 ≠ 0 → mbh.bssEndAddr ≠ 0 → mbh.loadEndAddr ≤ mbh.bssEndAddr
  entryAddr : mbh.flags &&& 0x10000 ≠ 0 → mbh.loadAddr ≤ mbh.entryAddr ∧ (mbh.loadEndAddr ≠ 0 → mbh.entryAddr < mbh.loadEndAddr)

/-- `grub_open` has put the contents at `kernel_real_addr`, and the buffer of `load_image` lies in
usable memory. -/
structure Opened (c : Call) (m : Machine) (image : List Byte) : Prop where
  errnum : m.errnum = .none
  filepos : m.filepos = 0
  filemax : m.filemax = .ofNat 32 image.length
  fits : image.length < 2 ^ 31
  copy : ∀ k, (h : k < image.length) → m.mem (m.kernelRealAddr + .ofNat 32 k) = image[k]
  usable : CharIo.wontFit m.toMemory c.bufferAddr (.ofNat 32 multibootSearch) = false

/-- The header that `load_image` recognises is at offset `i`. -/
def Recognises (c : Call) (m : Machine) (i : Nat) : Prop := findMultiboot (c.buffer m) multibootSearch = some i

/-- `load_image` goes by the address fields of the header. -/
def ByFields (c : Call) (m : Machine) (i : Nat) : Prop :=
  ¬ bootableI386Elf (c.buffer m) multibootSearch ∧ (multibootHeader (c.buffer m) i).flags &&& multibootAoutKludge ≠ 0

/-- Neither the features nor the address fields are a reason to refuse the kernel. -/
structure Admits (c : Call) (m : Machine) (i : Nat) : Prop where
  supported : (multibootHeader (c.buffer m) i).flags &&& multibootUnsupported = 0
  placed : ByFields c m i → ¬ (multibootHeader (c.buffer m) i).misplaced i m.filemax.toNat

/-- The checker and the loader agree on a file. -/
structure Agrees (file : List Byte) (stack : Buffer) (c : Call) (m : Machine) : Prop where
  passed : ∀ i, checkMultiboot file stack = some (i, .passed) → Recognises c m i ∧ Admits c m i
  /-- A header that conforms is not reported, unless GRUB itself can not load it. -/
  conforming : ∀ i, Recognises c m i → Conforms (multibootHeader (c.buffer m) i) i →
    checkMultiboot file stack = some (i, .passed) ∨ checkMultiboot file stack = some (i, .below1mb)

/-- As many bytes are the same for both: none of a compressed file, which the loader unpacks. -/
def common (file image : List Byte) : Nat := if image = file then min multibootSearch file.length else 0

/-- What the loader asks of a header that the checker lets pass, where `n` bytes are the same for
both. -/
structure Loadable (c : Call) (m : Machine) (n i : Nat) : Prop where
  aligned : i % 4 = 0
  /-- Where the loader sees something else, that is a header too. -/
  completed : n < i + 12 → Recognises c m i ∧ (multibootHeader (c.buffer m) i).flags &&& multibootUnsupported = 0
  placed : ByFields c m i → ¬ (multibootHeader (c.buffer m) i).misplaced i m.filemax.toNat

/-- What the checker asks of a header that the loader recognises. -/
structure Findable (file : List Byte) (stack : Buffer) (n i : Nat) : Prop where
  early : i < 8192 - 32
  first : ∀ j < i, word32 (fileBuffer file stack) j ≠ multibootMagic
  noVideo : (multibootHeader (fileBuffer file stack) i).flags &&& multibootVideoMode = 0
  /-- Where the checker sees something else, that passes too. -/
  completed : n < i + 12 ∨ (multibootHeader (fileBuffer file stack) i).flags &&& 0x10000 ≠ 0 ∧ n < i + 32 →
    word32 (fileBuffer file stack) i = multibootMagic ∧
      (checkFields (multibootHeader (fileBuffer file stack) i) = .passed ∨
        checkFields (multibootHeader (fileBuffer file stack) i) = .below1mb)

section Agreement
variable {file image : List Byte} {stack : Buffer} {c : Call} {m : Machine} {n i : Nat} {mbh : MultibootHeader} {v : Verdict}

/-- The checker finds the first magic number. -/
theorem findMagic_eq {buf : Buffer} : findMagic buf = some i ↔
    i < 8192 - 32 ∧ word32 buf i = multibootMagic ∧ ∀ j < i, word32 buf j ≠ multibootMagic := by
  rw [findMagic, List.find?_range_eq_some, decide_eq_true_iff, List.mem_range]
  constructor
  · rintro ⟨hmagic, hearly, hbefore⟩
    refine ⟨hearly, hmagic, fun j hj hmagic => ?_⟩
    have hnot := hbefore j hj
    rw [decide_eq_true hmagic] at hnot
    exact Bool.false_ne_true hnot
  · rintro ⟨hearly, hmagic, hbefore⟩
    refine ⟨hmagic, hearly, fun j hj => ?_⟩
    rw [decide_eq_false (hbefore j hj)]
    rfl

theorem checkMultiboot_eq : checkMultiboot file stack = some (i, v) ↔
    findMagic (fileBuffer file stack) = some i ∧ checkFields (multibootHeader (fileBuffer file stack) i) = v := by
  unfold checkMultiboot
  dsimp only
  rw [Option.map_eq_some_iff]
  constructor
  · rintro ⟨j, hfind, heq⟩
    obtain ⟨rfl, hfields⟩ := Prod.mk.inj heq
    exact ⟨hfind, hfields⟩
  · rintro ⟨hfind, hfields⟩
    exact ⟨i, hfind, by rw [hfields]⟩

/-- What the checks of the fields let pass. -/
structure Checked (mbh : MultibootHeader) : Prop where
  sum : mbh.sum = 0
  flags : mbh.flags &&& ~~~0x00010003 = 0
  headerAddr : mbh.flags &&& 0x10000 ≠ 0 → mbh.loadAddr ≤ mbh.headerAddr
  loadEndAddr : mbh.flags &&& 0x10000 ≠ 0 → mbh.loadEndAddr ≠ 0 → mbh.loadAddr < mbh.loadEndAddr
  bssEndAddr : mbh.flags &&& 0x10000 ≠ 0 → mbh.bssEndAddr ≠ 0 → mbh.loadEndAddr ≤ mbh.bssEndAddr
  entryAddr : mbh.flags &&& 0x10000 ≠ 0 → mbh.loadAddr ≤ mbh.entryAddr ∧ (mbh.loadEndAddr ≠ 0 → mbh.entryAddr < mbh.loadEndAddr)
  loadAddr : mbh.flags &&& 0x10000 ≠ 0 → 0x100000 ≤ mbh.loadAddr

theorem checked_of_passed (h : checkFields mbh = .passed) : Checked mbh := by
  unfold checkFields at h
  split at h
  · cases h
  next hsum =>
  split at h
  · cases h
  next hflags =>
  split at h
  next hkludge =>
    split at h
    · cases h
    next hheader =>
    split at h
    · cases h
    next hend =>
    split at h
    · cases h
    next hbss =>
    split at h
    · cases h
    next hbelow =>
    split at h
    · cases h
    next hbehind =>
    split at h
    · cases h
    next hmegabyte =>
    exact ⟨not_not.1 hsum, not_not.1 hflags, fun _ => BitVec.not_lt.1 hheader, fun _ hne => BitVec.not_le.1 fun hle => hend ⟨hne, hle⟩,
      fun _ hne => BitVec.not_lt.1 fun hlt => hbss ⟨hne, hlt⟩,
        fun _ => ⟨BitVec.not_lt.1 hbelow, fun hne => BitVec.not_le.1 fun hle => hbehind ⟨hne, hle⟩⟩,
      fun _ => BitVec.not_lt.1 hmegabyte⟩
  next hkludge =>
    exact ⟨not_not.1 hsum, not_not.1 hflags, fun h => absurd h hkludge, fun h => absurd h hkludge, fun h => absurd h hkludge,
      fun h => absurd h hkludge, fun h => absurd h hkludge⟩

/-- The flags that the checker knows. -/
theorem flags_known {flags : BitVec 32} : flags &&& ~~~0x00010003 = 0 ↔ flags &&& ~~~0x00010007 = 0 ∧ flags &&& multibootVideoMode = 0 := by
  have hmask : ~~~(0x00010003 : BitVec 32) = ~~~0x00010007 ||| multibootVideoMode := by decide
  rw [hmask, BitVec.and_or_distrib_left]
  exact BitVec.or_eq_zero_iff

theorem flags_supported {flags : BitVec 32} (h : flags &&& ~~~0x00010003 = 0) : flags &&& multibootUnsupported = 0 := by
  have hmask : multibootUnsupported = ~~~(0x00010003 : BitVec 32) &&& multibootUnsupported := by decide
  rw [hmask, ← BitVec.and_assoc, h]
  exact BitVec.zero_and

theorem flags_of_valid (h : checkFields mbh = .passed ∨ checkFields mbh = .below1mb) : mbh.flags &&& ~~~0x00010003 = 0 := by
  by_contra hflags
  have hfields : checkFields mbh = .badChecksum ∨ checkFields mbh = .reservedFlags := by
    unfold checkFields
    split
    · exact .inl rfl
    · exact .inr rfl
  obtain h | h := h <;> rw [h] at hfields <;> obtain hfields | hfields := hfields <;> cases hfields

/-- A header that conforms is let pass, as far as the specification goes. -/
theorem Conforms.checkFields (h : Conforms mbh i) (hsum : mbh.sum = 0) (hvideo : mbh.flags &&& multibootVideoMode = 0) :
    checkFields mbh = .passed ∨ checkFields mbh = .below1mb := by
  have hsum : mbh.magic + mbh.flags + mbh.checksum = 0 := hsum
  unfold Util.checkFields
  rw [if_neg (not_not.2 hsum), if_neg (not_not.2 (flags_known.2 ⟨h.flags, hvideo⟩))]
  split
  next hkludge =>
    rw [if_neg (BitVec.not_lt.2 (h.headerAddr hkludge).1), if_neg fun hend => BitVec.not_le.2 (h.loadEndAddr hkludge hend.1) hend.2,
      if_neg fun hbss => BitVec.not_lt.2 (h.bssEndAddr hkludge hbss.1) hbss.2, if_neg (BitVec.not_lt.2 (h.entryAddr hkludge).1),
      if_neg fun hend => BitVec.not_le.2 ((h.entryAddr hkludge).2 hend.1) hend.2]
    split
    · exact .inr rfl
    · exact .inl rfl
  next => exact .inl rfl

/-- The loader sees the file, as far as it goes. -/
theorem Opened.buffer (h : Opened c m file) (stack : Buffer) {k : Nat} (hk : k < min multibootSearch file.length) :
    fileBuffer file stack k = c.buffer m k := by
  have hin : k < file.length := by omega
  have hposition : m.position = 0 := by
    have hfits := h.fits
    have hsize : m.filemax.slt 0 = false := by
      have hzero : (0 : BitVec 32).toInt = 0 := rfl
      have hbmod : Int.bmod file.length (2 ^ 32) = file.length := Int.bmod_eq_of_le (by omega) (by omega)
      rw [h.filemax, BitVec.slt_eq_decide, decide_eq_false_iff_not, BitVec.toInt_ofNat', hzero, hbmod]
      omega
    unfold Machine.position
    rw [h.filepos, hsize]
    rfl
  have hclear : (m.checked c.bufferAddr (.ofNat 32 multibootSearch)).errnum = .none := Machine.checked_errnum.2 ⟨h.errnum, h.usable⟩
  have hbase : m.kernelRealAddr + 0 = m.kernelRealAddr := BitVec.add_zero _
  unfold Call.buffer
  rw [Machine.grubReadLocal_eq]
  dsimp only
  rw [if_pos ⟨hclear, by omega⟩, hposition, hbase, h.copy k hin, fileBuffer, List.getD_eq_getElem?_getD,
    List.getElem?_eq_getElem hin]
  rfl

theorem Opened.common (h : Opened c m image) (file : List Byte) (stack : Buffer) :
    ∀ k < common file image, fileBuffer file stack k = c.buffer m k := by
  unfold Util.common
  split
  next hsame =>
    subst hsame
    exact fun k hk => h.buffer stack hk
  next => exact fun k hk => absurd hk (Nat.not_lt_zero k)

/-- A header that the checker lets pass is one that the loader finds. -/
theorem Loadable.recognises (h : Loadable c m n i) (hsame : ∀ k < n, fileBuffer file stack k = c.buffer m k)
    (hfind : findMagic (fileBuffer file stack) = some i) (hchecked : Checked (multibootHeader (fileBuffer file stack) i)) :
    Recognises c m i ∧ (multibootHeader (c.buffer m) i).flags &&& multibootUnsupported = 0 := by
  by_cases hcut : n < i + 12
  · exact h.completed hcut
  obtain ⟨hearly, hmagic, hfirst⟩ := findMagic_eq.1 hfind
  have hsearch : multibootSearch = 8192 := rfl
  have hroom : i + 12 ≤ n := Nat.le_of_not_lt hcut
  have hflags := flags_congr hsame hroom
  rw [word32_congr hsame (show i + 4 ≤ n by omega)] at hmagic
  refine ⟨findMultiboot_eq.2 ⟨⟨h.aligned, by omega, hmagic, ?_, fun _ => by omega, fun hvideo => ?_⟩, fun j hj hfound => ?_⟩, ?_⟩
  · rw [← sum_congr hsame hroom]
    exact hchecked.sum
  · rw [← hflags, BitVec.and_comm] at hvideo
    exact absurd (flags_known.1 hchecked.flags).2 hvideo
  · -- a magic number before it would lie in the bytes that the checker sees too
    apply hfirst j hj
    rw [word32_congr hsame (show j + 4 ≤ n by omega)]
    exact hfound.2.2.1
  · rw [← hflags]
    exact flags_supported hchecked.flags

/-- A header that conforms does so for the checker. -/
theorem Conforms.congr (h : Conforms (multibootHeader (c.buffer m) i) i) (hsame : ∀ k < n, fileBuffer file stack k = c.buffer m k)
    (hroom : i + 12 ≤ n) (hroomAddr : (multibootHeader (fileBuffer file stack) i).flags &&& 0x10000 ≠ 0 → i + 32 ≤ n) :
    Conforms (multibootHeader (fileBuffer file stack) i) i := by
  by_cases haddr : (multibootHeader (fileBuffer file stack) i).flags &&& 0x10000 = 0
  · have hflags := h.flags
    rw [← flags_congr hsame hroom] at hflags
    exact ⟨hflags, fun hne => absurd haddr hne, fun hne => absurd haddr hne, fun hne => absurd haddr hne, fun hne => absurd haddr hne⟩
  · rw [multibootHeader_congr hsame (hroomAddr haddr)]
    exact h

/-- A header that the loader recognises, and the checker finds, passes. -/
theorem Findable.valid (h : Findable file stack n i) (hsame : ∀ k < n, fileBuffer file stack k = c.buffer m k)
    (hrecognised : Recognises c m i) (hconforms : Conforms (multibootHeader (c.buffer m) i) i) :
    findMagic (fileBuffer file stack) = some i ∧
      (checkFields (multibootHeader (fileBuffer file stack) i) = .passed ∨
        checkFields (multibootHeader (fileBuffer file stack) i) = .below1mb) := by
  by_cases hcut : n < i + 12 ∨ (multibootHeader (fileBuffer file stack) i).flags &&& 0x10000 ≠ 0 ∧ n < i + 32
  · obtain ⟨hmagic, hvalid⟩ := h.completed hcut
    exact ⟨findMagic_eq.2 ⟨h.early, hmagic, h.first⟩, hvalid⟩
  rw [not_or, not_and, Nat.not_lt, Nat.not_lt] at hcut
  obtain ⟨hroom, hroomAddr⟩ := hcut
  obtain ⟨-, -, hmagic, hsum, -, -⟩ := (findMultiboot_eq.1 hrecognised).1
  rw [← word32_congr hsame (show i + 4 ≤ n by omega)] at hmagic
  rw [← sum_congr hsame hroom] at hsum
  exact ⟨findMagic_eq.2 ⟨h.early, hmagic, h.first⟩, (hconforms.congr hsame hroom hroomAddr).checkFields hsum h.noVideo⟩

/-- **The checker agrees with the loader** exactly when a header that it lets pass is one that the
loader finds and places, and it finds itself the header that the loader recognises. -/
theorem agrees_iff (file : List Byte) (stack : Buffer) (hopened : Opened c m image) : Agrees file stack c m ↔
    (∀ i, findMagic (fileBuffer file stack) = some i → checkFields (multibootHeader (fileBuffer file stack) i) = .passed →
      Loadable c m (common file image) i) ∧
    ∀ i, Recognises c m i → Conforms (multibootHeader (c.buffer m) i) i → Findable file stack (common file image) i := by
  have hsame := hopened.common file stack
  constructor
  · intro hagree
    constructor
    · intro i hfind hpassed
      obtain ⟨hrecognised, hadmits⟩ := hagree.passed i (checkMultiboot_eq.2 ⟨hfind, hpassed⟩)
      exact ⟨(findMultiboot_eq.1 hrecognised).1.1, fun _ => ⟨hrecognised, hadmits.supported⟩, hadmits.placed⟩
    · intro i hrecognised hconforms
      have hchecked : ∃ v, (v = .passed ∨ v = .below1mb) ∧ checkMultiboot file stack = some (i, v) :=
        (hagree.conforming i hrecognised hconforms).elim (fun h => ⟨_, .inl rfl, h⟩) fun h => ⟨_, .inr rfl, h⟩
      obtain ⟨v, hv, hcheck⟩ := hchecked
      obtain ⟨hfind, rfl⟩ := checkMultiboot_eq.1 hcheck
      obtain ⟨hearly, hmagic, hfirst⟩ := findMagic_eq.1 hfind
      exact ⟨hearly, hfirst, (flags_known.1 (flags_of_valid hv)).2, fun _ => ⟨hmagic, hv⟩⟩
  · rintro ⟨hloadable, hfindable⟩
    constructor
    · intro i hcheck
      obtain ⟨hfind, hpassed⟩ := checkMultiboot_eq.1 hcheck
      have hload := hloadable i hfind hpassed
      obtain ⟨hrecognised, hsupported⟩ := hload.recognises hsame hfind (checked_of_passed hpassed)
      exact ⟨hrecognised, hsupported, hload.placed⟩
    · intro i hrecognised hconforms
      obtain ⟨hfind, hfields⟩ := (hfindable i hrecognised hconforms).valid hsame hrecognised hconforms
      exact hfields.imp (fun h => checkMultiboot_eq.2 ⟨hfind, h⟩) fun h => checkMultiboot_eq.2 ⟨hfind, h⟩

/-- `load_image` refuses a kernel whose header it does not admit. -/
theorem loadImage_refuses (hrecognised : Recognises c m i) (hnot : ¬ Admits c m i) : (Loader.loadImage c true m).type = .none := by
  rw [Loader.loadImage_buffer]
  unfold Loader.loadBuffer
  rw [Loader.search_toNat, hrecognised]
  dsimp only
  by_cases hsupported : (multibootHeader (c.buffer m) i).flags &&& multibootUnsupported = 0
  · rw [if_neg (not_not.2 hsupported)]
    obtain ⟨⟨helf, hkludge⟩, hmisplaced⟩ : ByFields c m i ∧ (multibootHeader (c.buffer m) i).misplaced i m.filemax.toNat := by
      by_contra hno
      exact hnot ⟨hsupported, fun hby hmis => hno ⟨hby, hmis⟩⟩
    unfold Loader.loadFormat
    rw [Loader.search_toNat, if_neg fun h => helf h.2, if_pos hkludge]
    dsimp only
    have hfilemax : (c.begun m).filemax = m.filemax := by
      unfold Call.begun
      rw [Machine.grubReadLocal_eq]
      rfl
    rw [← hfilemax] at hmisplaced
    have herr : (Loader.admitKludge (multibootHeader (c.buffer m) i) i (c.begun m)).2.errnum ≠ .none :=
      Loader.admitKludge_misplaced hmisplaced
    unfold Loader.loadAout
    rw [if_pos herr]
    rfl
  · rw [if_pos hsupported]
    rfl

/-! ## Kernels -/

/-- The machine with the contents of the file at 2 MiB. -/
def kernelAt (file : List Byte) : Machine :=
  { Loader.shortEntryMachine with
    mem := fun a => file.getD (a - 0x200000).toNat 0
    filemax := .ofNat 32 file.length
    kernelRealAddr := 0x200000 }

theorem kernelAt_opened (hfits : file.length < 2 ^ 31) : Opened Loader.shortEntryCall (kernelAt file) file where
  errnum := rfl
  filepos := rfl
  filemax := rfl
  fits := hfits
  copy k hk := by
    have hoffset : ((0x200000 : Word) + .ofNat 32 k - 0x200000).toNat = k := by
      rw [add_sub_cancel_left, BitVec.toNat_ofNat]
      omega
    show file.getD ((0x200000 : Word) + .ofNat 32 k - 0x200000).toNat 0 = file[k]
    rw [hoffset, List.getD_eq_getElem?_getD, List.getElem?_eq_getElem hk]
    rfl
  usable := by
    show CharIo.wontFit Loader.shortEntryMachine.toMemory _ _ = false
    decide

/-- A file that is nothing but a header. -/
def bareHeader : List Byte := [0x02, 0xB0, 0xAD, 0x1B, 0, 0, 0, 0, 0xFE, 0x4F, 0x52, 0xE4]

theorem bareHeader_agrees : Agrees bareHeader (fun _ => 0) Loader.shortEntryCall (kernelAt bareHeader) := by
  have hopened : Opened Loader.shortEntryCall (kernelAt bareHeader) bareHeader := kernelAt_opened (by decide)
  have hfind : findMagic (fileBuffer bareHeader fun _ => 0) = some 0 := findMagic_eq.2 (by decide)
  have hbare : (multibootHeader (Loader.shortEntryCall.buffer (kernelAt bareHeader)) 0).flags &&& multibootAoutKludge = 0 := by decide
  have hrecognised : Recognises Loader.shortEntryCall (kernelAt bareHeader) 0 :=
    findMultiboot_eq.2 ⟨by decide, fun j hj => absurd hj (Nat.not_lt_zero j)⟩
  refine (agrees_iff bareHeader (fun _ => 0) hopened).2 ⟨fun i hi _ => ?_, fun i hi _ => ?_⟩
  · obtain rfl := Option.some.inj (hfind.symm.trans hi)
    exact ⟨rfl, fun h => absurd h (by decide), fun h => absurd hbare h.2⟩
  · obtain rfl := Option.some.inj (hrecognised.symm.trans hi)
    exact ⟨by decide, fun j hj => absurd hj (Nat.not_lt_zero j), by decide, fun h => absurd h (by decide)⟩

/-- A header at offset 1: a file that the checker lets pass, and the loader does not know. -/
def unalignedKernel : List Byte := [0, 0x02, 0xB0, 0xAD, 0x1B, 0, 0, 0, 0, 0xFE, 0x4F, 0x52, 0xE4] ++ List.replicate 51 0

theorem unalignedKernel_disagrees : Opened Loader.shortEntryCall (kernelAt unalignedKernel) unalignedKernel ∧
    checkMultiboot unalignedKernel (fun _ => 0) = some (1, .passed) ∧
      ¬ Agrees unalignedKernel (fun _ => 0) Loader.shortEntryCall (kernelAt unalignedKernel) := by
  have hcheck : checkMultiboot unalignedKernel (fun _ => 0) = some (1, .passed) := by decide +kernel
  refine ⟨kernelAt_opened (by decide), hcheck, fun hagree => ?_⟩
  have haligned := (findMultiboot_eq.1 (hagree.passed 1 hcheck).1).1.1
  exact absurd haligned (by decide)

end Agreement

end TrustedGrub.Util
