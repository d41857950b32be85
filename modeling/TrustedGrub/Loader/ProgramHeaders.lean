import TrustedGrub.Loader.LoadImage

/-!
# The program headers that are read

Which entries of the program header table the loop over the segments comes to, and
when they lie in what has been read of the file.
-/

namespace TrustedGrub.Loader
open Fips180 (Byte)
open CharIo (Word wontFit)
open Boot (multibootHeader multibootSearch multibootUnsupported findMultiboot bootableI386Elf)
open TrustedGrub.Partition (Buffer)

/-! ## Where the loop stops -/

/-- The segments of a kernel, and the machine that loads them. -/
structure Segments where
  start : Machine
  type : KernelType
  header : Nat → ProgramHeader

namespace Segments
variable (t : Segments)

/-- The segment `i` lies below one megabyte, or does not fit. -/
def Fails (i : Nat) : Prop :=
  memaddr t.type (t.header i) < 0x100000 ∨ wontFit t.start.toMemory (memaddr t.type (t.header i)) (t.header i).memsz = true

/-- The segment `i` passes the first check of its range, but not those of its parts: the error is seen with the next one. -/
def Spoils (i : Nat) : Prop :=
  wontFit t.start.toMemory (memaddr t.type (t.header i)) (filesiz (t.header i)) = true ∨
    filesiz (t.header i) < (t.header i).memsz ∧
      wontFit t.start.toMemory (memaddr t.type (t.header i) + filesiz (t.header i)) ((t.header i).memsz - filesiz (t.header i)) = true

def IsLoad (i : Nat) : Prop := (t.header i).type = ptLoad

/-- An error is pending when the loop comes to header `i`. -/
def Spoiled (i : Nat) : Prop := ∃ j < i, t.IsLoad j ∧ t.Spoils j

/-- The loop ends with header `i` if it comes to it. -/
def Stops (i : Nat) : Prop := t.IsLoad i ∧ (t.Fails i ∨ t.Spoiled i)

end Segments

/-! ## One segment -/

section OneSegment
variable {m : Machine} {addr filesz memsz : Word} {type : KernelType} {ph : ProgramHeader} {s : Scan}

/-- What the load of a segment leaves, if its range passes the check. -/
def Machine.filled (m : Machine) (addr filesz memsz : Word) : Machine :=
  let m := (m.grubRead addr filesz).2
  if filesz < memsz then m.grubMemset (addr + filesz) 0 (memsz - filesz) else m

/-- A read returns the length it was asked for, so it is the check alone that ends the loop. -/
theorem loadSegment_eq (m : Machine) (addr filesz memsz : Word) : m.loadSegment addr filesz memsz =
    if (m.checked addr memsz).errnum = .none then (true, (m.checked addr memsz).filled addr filesz memsz)
    else (false, m.checked addr memsz) := by
  unfold Machine.loadSegment
  rw [Machine.memcheck_eq]
  by_cases h : (m.checked addr memsz).errnum = .none
  · simp only [h, decide_true, if_true]
    rw [Machine.grubRead_eq]
    simp only [if_true, Machine.filled, Machine.grubRead_eq]
  · simp only [h, decide_false, if_false, Bool.false_eq_true]

theorem filled_sizes (m : Machine) (addr filesz memsz : Word) : m.SameSizes (m.filled addr filesz memsz) := by
  unfold Machine.filled
  dsimp only
  split
  · exact Machine.grubRead_sizes.trans Machine.grubMemset_sizes
  · exact Machine.grubRead_sizes

theorem filled_errnum (m : Machine) (addr filesz memsz : Word) : (m.filled addr filesz memsz).errnum = .none ↔
    m.errnum = .none ∧ wontFit m.toMemory addr filesz = false ∧
      (filesz < memsz → wontFit m.toMemory (addr + filesz) (memsz - filesz) = false) := by
  unfold Machine.filled
  dsimp only
  split
  next hless =>
    rw [Machine.grubMemset_errnum, Machine.checked_errnum, Machine.grubRead_snd_errnum, Machine.checked_errnum,
      Machine.grubRead_sizes.wontFit, and_assoc]
    simp only [hless, true_implies]
  next hmore =>
    rw [Machine.grubRead_snd_errnum, Machine.checked_errnum]
    simp only [hmore, false_implies, and_true]

theorem filled_ne_execFormat (h : m.errnum ≠ .execFormat) : (m.filled addr filesz memsz).errnum ≠ .execFormat := by
  have hread : (m.grubRead addr filesz).2.errnum ≠ .execFormat := by
    rw [Machine.grubRead_snd_errnum]
    exact Machine.checked_ne_execFormat h
  unfold Machine.filled
  dsimp only
  split
  · rw [Machine.grubMemset_errnum]
    exact Machine.checked_ne_execFormat hread
  · exact hread

end OneSegment

/-! ## The loop -/

section Loop
variable {t : Segments} {i n : Nat} {s : Scan} {type : KernelType} {ph : ProgramHeader}

/-- What is noted of a segment. -/
theorem noted_machine (type : KernelType) (ph : ProgramHeader) (s : Scan) : (s.noted type ph).machine = { s.machine with
    errnum := if memaddr type ph < 0x100000 then .below1mb else s.machine.errnum
    filepos := if s.machine.filemax.slt ph.offset ∨ ph.offset.slt 0 then s.machine.filepos else ph.offset
    curAddr := if s.machine.curAddr < memaddr type ph + ph.memsz then memaddr type ph + ph.memsz else s.machine.curAddr } := by
  unfold Scan.noted
  dsimp only
  rw [Machine.grubSeek_snd]
  by_cases hlow : memaddr type ph < 0x100000
  · simp only [if_pos hlow]
    split <;> rfl
  · simp only [if_neg hlow]
    split <;> rfl

theorem noted_sizes (type : KernelType) (ph : ProgramHeader) (s : Scan) : s.machine.SameSizes (s.noted type ph).machine := by
  rw [noted_machine]
  exact ⟨rfl, rfl⟩

theorem noted_errnum (type : KernelType) (ph : ProgramHeader) (s : Scan) :
    (s.noted type ph).machine.errnum = if memaddr type ph < 0x100000 then .below1mb else s.machine.errnum := by
  rw [noted_machine]

theorem noted_ne_execFormat (h : s.machine.errnum ≠ .execFormat) : (s.noted type ph).machine.errnum ≠ .execFormat := by
  rw [noted_errnum]
  split
  · exact Disk.GrubError.noConfusion
  · exact h

/-- The loop comes to header `i` in state `s`. -/
structure Coming (t : Segments) (i : Nat) (s : Scan) : Prop where
  sizes : t.start.SameSizes s.machine
  looked : s.looked = i
  errnum : s.machine.errnum = .none ↔ ¬ t.Spoiled i
  unstopped : ∀ j < i, ¬ t.Stops j
  other : s.machine.errnum ≠ .execFormat

/-- The loop has ended with header `k`. -/
structure StoppedAt (t : Segments) (k : Nat) (s : Scan) : Prop where
  looked : s.looked = k + 1
  stops : t.Stops k
  first : ∀ j < k, ¬ t.Stops j
  errnum : s.machine.errnum ≠ .none
  other : s.machine.errnum ≠ .execFormat

theorem Segments.spoiled_succ : t.Spoiled (i + 1) ↔ t.Spoiled i ∨ t.IsLoad i ∧ t.Spoils i := by
  constructor
  · rintro ⟨j, hj, hspoils⟩
    rcases Nat.lt_succ_iff_lt_or_eq.1 hj with hlt | rfl
    · exact .inl ⟨j, hlt, hspoils⟩
    · exact .inr hspoils
  · rintro (⟨j, hj, hspoils⟩ | hspoils)
    · exact ⟨j, Nat.lt_succ_of_lt hj, hspoils⟩
    · exact ⟨i, Nat.lt_succ_self i, hspoils⟩

/-- A header that is not one of a segment is passed over. -/
theorem segment_other (h : ph.type ≠ ptLoad) (s : Scan) : s.segment type ph = (true, { s with looked := s.looked + 1 }) := if_neg h

theorem segment_load (h : ph.type = ptLoad) (s : Scan) : s.segment type ph =
    (((s.noted type ph).machine.loadSegment (memaddr type ph) (filesiz ph) ph.memsz).1,
      { s.noted type ph with
        machine := ((s.noted type ph).machine.loadSegment (memaddr type ph) (filesiz ph) ph.memsz).2
        looked := s.looked + 1 }) := if_pos h

theorem Coming.stop (h : Coming t i s) (hstops : t.Stops i) :
    (s.segment t.type (t.header i)).1 = false ∧ StoppedAt t i (s.segment t.type (t.header i)).2 := by
  have hload := hstops.1
  have hchecked : ((s.noted t.type (t.header i)).machine.checked (memaddr t.type (t.header i)) (t.header i).memsz).errnum ≠ .none := by
    rw [Ne, Machine.checked_errnum, (h.sizes.trans (noted_sizes _ _ s)).wontFit, noted_errnum]
    rintro ⟨hnone, hfits⟩
    rcases hstops.2 with (hlow | hwont) | hspoiled
    · rw [if_pos hlow] at hnone
      cases hnone
    · rw [hwont] at hfits
      cases hfits
    · split at hnone
      · cases hnone
      · exact h.errnum.1 hnone hspoiled
  rw [segment_load hload, loadSegment_eq, if_neg hchecked]
  refine ⟨rfl, congrArg (· + 1) h.looked, hstops, h.unstopped, hchecked, ?_⟩
  exact Machine.checked_ne_execFormat (noted_ne_execFormat h.other)

theorem Segments.filled_clean (i : Nat) {m : Machine} (hsizes : t.start.SameSizes m) (hclean : m.errnum = .none) :
    (m.filled (memaddr t.type (t.header i)) (filesiz (t.header i)) (t.header i).memsz).errnum = .none ↔ ¬ t.Spoils i := by
  rw [filled_errnum, hsizes.wontFit, hsizes.wontFit, Segments.Spoils, not_or, not_and, Bool.not_eq_true, Bool.not_eq_true]
  simp only [hclean, true_and]

theorem Coming.next (h : Coming t i s) (hgoes : ¬ t.Stops i) :
    (s.segment t.type (t.header i)).1 = true ∧ Coming t (i + 1) (s.segment t.type (t.header i)).2 := by
  have hunstopped : ∀ j < i + 1, ¬ t.Stops j := by
    intro j hj
    rcases Nat.lt_succ_iff_lt_or_eq.1 hj with hlt | rfl
    · exact h.unstopped j hlt
    · exact hgoes
  by_cases hload : t.IsLoad i
  · have hfits : ¬ t.Fails i := fun hf => hgoes ⟨hload, .inl hf⟩
    have hclean : ¬ t.Spoiled i := fun hs => hgoes ⟨hload, .inr hs⟩
    have hlow : ¬ memaddr t.type (t.header i) < 0x100000 := fun hl => hfits (.inl hl)
    have hsizes := h.sizes.trans (noted_sizes t.type (t.header i) s)
    have hnoted : (s.noted t.type (t.header i)).machine.errnum = .none := by
      rw [noted_errnum, if_neg hlow]
      exact h.errnum.2 hclean
    have hwont : wontFit t.start.toMemory (memaddr t.type (t.header i)) (t.header i).memsz = false :=
      Bool.eq_false_iff.2 fun hw => hfits (.inr hw)
    have hchecked : ((s.noted t.type (t.header i)).machine.checked (memaddr t.type (t.header i)) (t.header i).memsz).errnum = .none := by
      rw [Machine.checked_errnum, hsizes.wontFit]
      exact ⟨hnoted, hwont⟩
    rw [segment_load hload, loadSegment_eq, if_pos hchecked]
    have hfilled := t.filled_clean i (hsizes.trans Machine.checked_sizes) hchecked
    refine ⟨rfl, (hsizes.trans Machine.checked_sizes).trans (filled_sizes ..), congrArg (· + 1) h.looked, ?_, hunstopped, ?_⟩
    · rw [hfilled, Segments.spoiled_succ]
      simp only [hclean, hload, true_and, false_or]
    · exact filled_ne_execFormat (Machine.checked_ne_execFormat (noted_ne_execFormat h.other))
  · rw [segment_other hload]
    refine ⟨rfl, h.sizes, congrArg (· + 1) h.looked, ?_, hunstopped, h.other⟩
    rw [h.errnum, Segments.spoiled_succ]
    simp only [hload, false_and, or_false]

/-- The loop over all headers, or as far as it comes. -/
theorem segments_scanned {h : ElfHeader} {buf : Buffer} (hheader : t.header = fun i => programHeader buf (h.phdrOffset i)) :
    ∀ (n : Nat) {i : Nat} {s : Scan}, Coming t i s →
      Coming t (i + n) (Scan.segments t.type h buf n i s) ∨ ∃ k < i + n, StoppedAt t k (Scan.segments t.type h buf n i s) := by
  intro n
  induction n with
  | zero =>
    intro i s hcoming
    exact .inl hcoming
  | succ n ih =>
    intro i s hcoming
    have hhead : programHeader buf (h.phdrOffset i) = t.header i := by rw [hheader]
    unfold Scan.segments
    rw [hhead]
    by_cases hstops : t.Stops i
    · obtain ⟨hfalse, hat⟩ := hcoming.stop hstops
      dsimp only
      rw [hfalse]
      exact .inr ⟨i, by omega, hat⟩
    · obtain ⟨htrue, hnext⟩ := hcoming.next hstops
      dsimp only
      rw [htrue, if_pos rfl, Nat.add_comm n 1, ← Nat.add_assoc]
      exact ih hnext

end Loop

/-! ## The table in the buffer -/

namespace Call
variable (c : Call) (m : Machine)

/-- The first bytes of the file, as they lie on the stack after the read. -/
def buffer : Buffer := (m.grubReadLocal c.bufferAddr c.stack multibootSearch).1

/-- The machine after that read. -/
def begun : Machine := (m.grubReadLocal c.bufferAddr c.stack multibootSearch).2.2

def header : ElfHeader := elfHeader (c.buffer m)

/-- How many bytes of the buffer have been read from the file: none, if there is an error, and no more than the file has. -/
def count : Nat := if (c.begun m).errnum = .none then min multibootSearch (m.filemax.toInt - m.position.toInt).toNat else 0

/-- Whether there is a Multiboot header. -/
def foundType : KernelType := if (findMultiboot (c.buffer m) multibootSearch).isSome then .multiboot else .none

/-- The Multiboot header asks for a feature that there is not. -/
def Unsupported : Prop :=
  ∃ i, findMultiboot (c.buffer m) multibootSearch = some i ∧ (multibootHeader (c.buffer m) i).flags &&& multibootUnsupported ≠ 0

/-- The kernel is taken for an ELF executable. -/
def IsElf : Prop :=
  ¬ c.Unsupported m ∧ elfSupported (c.buffer m) (c.foundType m) c.suggestedType ∧ bootableI386Elf (c.buffer m) multibootSearch

/-- The program header `i` lies below the end of what has been read, without any wraparound. -/
def Inside (i : Nat) : Prop := (c.header m).phoff.toNat + (c.header m).phentsize.toNat * i + 32 ≤ c.count m

/-- All program headers do. -/
def TableInside : Prop := ∀ i < (c.header m).phnum.toNat, c.Inside m i

/-- The program headers are read from the bytes that have been read of the file, or else the kernel is rejected. -/
structure HeadersBounded : Prop where
  inside : ∀ i < (loadImage c true m).looked, c.Inside m i
  rejected : c.IsElf m → ¬ c.TableInside m → (loadImage c true m).type = .none ∧ (loadImage c true m).machine.errnum = .execFormat

/-- The error after the check of the entry address. -/
def pending : Disk.GrubError :=
  if (if c.foundType m = .multiboot then (c.header m).entry else (c.header m).entry &&& 0xFFFFFF) < 0x100000 then .below1mb
  else (c.begun m).errnum

/-- The segments as the loop sees them. -/
def segments : Segments where
  start := c.begun m
  type := if c.foundType m = .none then elfType (c.header m) c.suggestedType else c.foundType m
  header i := programHeader (c.buffer m) ((c.header m).phdrOffset i)

/-- The loop stops for another reason before it comes to a header that is not inside. -/
def StopsInside : Prop := ∃ k < (c.header m).phnum.toNat, (∀ i ≤ k, c.Inside m i) ∧ (c.segments m).Stops k

end Call

section Bounds
variable {c : Call} {m : Machine}

theorem count_le : c.count m ≤ multibootSearch := by
  unfold Call.count
  split
  · exact Nat.min_le_left _ _
  · exact Nat.zero_le _

theorem search_word : ¬ (BitVec.ofNat 32 multibootSearch = 0 ∨ (BitVec.ofNat 32 multibootSearch).slt 32 = true) := by decide

/-- A read returns the length it was asked for, so no file is too short. -/
theorem loadImage_buffer (c : Call) (m : Machine) :
    loadImage c true m = loadBuffer c (c.buffer m) (.ofNat 32 multibootSearch) (c.begun m) := by
  have hlen : (m.grubReadLocal c.bufferAddr c.stack multibootSearch).2.1 = .ofNat 32 multibootSearch := by
    rw [Machine.grubReadLocal_eq]
  unfold loadImage
  rw [if_neg (not_not.2 rfl)]
  dsimp only
  rw [hlen, if_neg search_word]
  rfl

theorem search_toNat : (BitVec.ofNat 32 multibootSearch).toNat = multibootSearch := rfl

/-- Unless a feature is missing, the load goes by the format. -/
theorem loadImage_format (hsupported : ¬ c.Unsupported m) : ∃ flags i,
    loadImage c true m = loadFormat c (c.buffer m) (.ofNat 32 multibootSearch) (c.foundType m) flags i (c.begun m) := by
  rw [loadImage_buffer]
  unfold loadBuffer Call.foundType
  rw [search_toNat]
  cases hfound : findMultiboot (c.buffer m) multibootSearch with
  | none => exact ⟨_, _, rfl⟩
  | some i =>
    have hflags : ¬ (multibootHeader (c.buffer m) i).flags &&& multibootUnsupported ≠ 0 := fun h => hsupported ⟨i, hfound, h⟩
    dsimp only
    rw [if_neg hflags]
    exact ⟨_, _, rfl⟩

/-- The check of the entry address, and that of the table. -/
theorem admitElf_snd_errnum (h : ElfHeader) (len : Word) (type suggested : KernelType) (m : Machine) :
    (admitElf h len type suggested m).2.errnum =
      if h.outside len then .execFormat
      else if (if type = .multiboot then h.entry else h.entry &&& 0xFFFFFF) < 0x100000 then .below1mb else m.errnum := by
  unfold admitElf
  dsimp only
  generalize (if type = KernelType.multiboot then h.entry else h.entry &&& 0xFFFFFF) = entry
  by_cases hlow : entry < 0x100000
  · simp only [if_pos hlow]
    split <;> rfl
  · simp only [if_neg hlow]
    split <;> rfl

theorem admitElf_sizes (h : ElfHeader) (len : Word) (type suggested : KernelType) (m : Machine) :
    m.SameSizes (admitElf h len type suggested m).2 := by
  unfold admitElf
  dsimp only
  generalize (if type = KernelType.multiboot then h.entry else h.entry &&& 0xFFFFFF) = entry
  by_cases hlow : entry < 0x100000
  · simp only [if_pos hlow]
    split <;> exact ⟨rfl, rfl⟩
  · simp only [if_neg hlow]
    split <;> exact ⟨rfl, rfl⟩

/-- An ELF file. -/
theorem loadImage_elf (helf : c.IsElf m) : loadImage c true m = loadElf c (c.buffer m) (c.segments m).type
    (admitElf (c.header m) (.ofNat 32 multibootSearch) (c.foundType m) c.suggestedType (c.begun m)).2 := by
  obtain ⟨hsupported, helf⟩ := helf
  obtain ⟨flags, i, hload⟩ := loadImage_format hsupported
  have htype : (admitElf (elfHeader (c.buffer m)) (.ofNat 32 multibootSearch) (c.foundType m) c.suggestedType (c.begun m)).1 =
      (c.segments m).type := rfl
  rw [hload, loadFormat, search_toNat, if_pos helf]
  dsimp only
  rw [htype, Call.header]

theorem finish_looked (c : Call) (type : KernelType) (real : Word) (looked : Nat) (m : Machine) :
    (finish c type real looked m).looked = looked := by
  unfold finish
  dsimp only
  generalize (if m.errnum = .none then type else KernelType.none) = type
  split <;> rfl

theorem loadAout_looked (c : Call) (buf : Buffer) (l : Locals) (m : Machine) : (loadAout c buf l m).looked = 0 := by
  unfold loadAout
  split
  · rfl
  · exact finish_looked ..

theorem finishLinux_looked (c : Call) (p : LinuxPlan) (m : Machine) : (finishLinux c p m).looked = 0 := by
  unfold finishLinux
  dsimp only
  generalize (if p.big = true then KernelType.bigLinux else .linux) = type
  split
  · split <;> rfl
  · rfl

theorem loadLinux_looked (c : Call) (buf : Buffer) (m : Machine) : (m.loadLinux c buf).looked = 0 := by
  unfold Machine.loadLinux
  dsimp only
  split
  · rfl
  split
  · rfl
  split
  · rfl
  · exact finishLinux_looked ..

/-- No program header is looked at in a file of another format. -/
theorem loadImage_other (hother : ¬ c.IsElf m) : (loadImage c true m).looked = 0 := by
  by_cases hsupported : c.Unsupported m
  · obtain ⟨i, hfound, hflags⟩ := hsupported
    rw [loadImage_buffer, loadBuffer, search_toNat, hfound]
    dsimp only
    rw [if_pos hflags]
    rfl
  · obtain ⟨flags, i, hload⟩ := loadImage_format hsupported
    rw [hload, loadFormat, search_toNat, if_neg fun h => hother ⟨hsupported, h⟩]
    split
    · exact loadAout_looked ..
    split
    · exact loadAout_looked ..
    split
    · exact loadLinux_looked ..
    · rfl

/-- A kernel that is refused, with the error that is pending. -/
theorem loadElf_refused {buf : Buffer} {type : KernelType} {m : Machine} (h : m.errnum ≠ .none) : loadElf c buf type m = .rejected m :=
  if_pos h

/-- The end after an error. -/
theorem finish_failed {type : KernelType} {real : Word} {looked : Nat} {m : Machine} (h : m.errnum ≠ .none) :
    finish c type real looked m =
      ⟨.none, if c.suggestedType = .none then m else { m with errnum := .execFormat }, looked⟩ := by
  have hreal : ¬ (m.errnum = .none ∧ real ≠ 0) := fun hr => h hr.1
  unfold finish
  simp only [if_neg h, if_neg hreal]
  by_cases hfree : c.suggestedType = .none
  · rw [if_pos hfree, if_neg fun hs => hs.1 hfree]
  · rw [if_neg hfree, if_pos ⟨hfree, hfree⟩]

theorem machine_loadElf_looked (type : KernelType) (buf : Buffer) (m : Machine) : (m.loadElf type buf).looked =
    (Scan.segments type (elfHeader buf) buf (elfHeader buf).phnum.toNat 0 ⟨{ m with curAddr := 0 }, 0, 0, 0⟩).looked := by
  unfold Machine.loadElf
  dsimp only
  split
  · rfl
  · split <;> rfl

/-- The loop over the headers of a kernel that has been admitted. -/
theorem loadElf_scanned {n : Nat} {m' : Machine} (hn : (c.header m).phnum.toNat = n) (hadmitted : m'.errnum = .none)
    (hsizes : (c.begun m).SameSizes m') :
    (∃ s, Coming (c.segments m) n s ∧ (loadElf c (c.buffer m) (c.segments m).type m').looked = s.looked) ∨
      ∃ k < n, ∃ s, StoppedAt (c.segments m) k s ∧ loadElf c (c.buffer m) (c.segments m).type m' =
        ⟨.none, if c.suggestedType = .none then s.machine else { s.machine with errnum := .execFormat }, s.looked⟩ := by
  subst hn
  have hstart : Coming (c.segments m) 0 ⟨{ m'.fillInfo with curAddr := 0 }, 0, 0, 0⟩ := by
    have hfirst : ¬ (c.segments m).Spoiled 0 := by
      rintro ⟨j, hj, -⟩
      exact Nat.not_lt_zero j hj
    have hclean : m'.fillInfo.errnum = .none := hadmitted
    refine ⟨hsizes, rfl, iff_of_true hclean hfirst, fun j hj => absurd hj (Nat.not_lt_zero j), ?_⟩
    rw [hclean]
    exact Disk.GrubError.noConfusion
  have hload : loadElf c (c.buffer m) (c.segments m).type m' =
      finish c (c.segments m).type (m'.fillInfo.loadElf (c.segments m).type (c.buffer m)).realEntryAddr
        (m'.fillInfo.loadElf (c.segments m).type (c.buffer m)).looked (m'.fillInfo.loadElf (c.segments m).type (c.buffer m)).machine :=
    if_neg (not_not.2 hadmitted)
  have hheader : (c.segments m).header = fun i => programHeader (c.buffer m) ((c.header m).phdrOffset i) := rfl
  have hscanned := segments_scanned hheader (c.header m).phnum.toNat hstart
  rw [Nat.zero_add] at hscanned
  rcases hscanned with hall | ⟨k, hk, hat⟩
  · refine .inl ⟨_, hall, ?_⟩
    rw [hload, finish_looked, machine_loadElf_looked]
    rfl
  · refine .inr ⟨k, hk, _, hat, ?_⟩
    have hsegments : m'.fillInfo.loadElf (c.segments m).type (c.buffer m) = Scan.segments (c.segments m).type (c.header m) (c.buffer m)
        (c.header m).phnum.toNat 0 ⟨{ m'.fillInfo with curAddr := 0 }, 0, 0, 0⟩ := if_pos hat.errnum
    rw [hload, hsegments, finish_failed hat.errnum]

/-- The error that is pending when an ELF header has been checked. -/
theorem admitted_errnum : (admitElf (c.header m) (.ofNat 32 multibootSearch) (c.foundType m) c.suggestedType (c.begun m)).2.errnum =
    if (c.header m).outside (.ofNat 32 multibootSearch) then .execFormat else c.pending m := admitElf_snd_errnum ..

/-- The image is rejected by the test, its table lies inside, or the loop comes to no header that does not. -/
def Call.HeadersFit (c : Call) (m : Machine) : Prop :=
  (c.header m).outside (.ofNat 32 multibootSearch) ∨ c.TableInside m ∨ c.pending m = .execFormat ∨
    c.pending m = .none ∧ c.suggestedType ≠ .none ∧ c.StopsInside m

/-- What comes of a kernel whose header has been admitted. -/
theorem headersBounded_admitted {m' : Machine} (helf : c.IsElf m)
    (hload : loadImage c true m = loadElf c (c.buffer m) (c.segments m).type m')
    (hnone : m'.errnum = .none) (hsizes : (c.begun m).SameSizes m') :
    c.HeadersBounded m ↔ c.TableInside m ∨ c.suggestedType ≠ .none ∧ c.StopsInside m := by
  rcases loadElf_scanned rfl hnone hsizes with ⟨s, hall, hlooked⟩ | ⟨k, hk, s, hat, hresult⟩
  · rw [← hload, hall.looked] at hlooked
    constructor
    · intro h
      exact .inl fun i hi => h.inside i (hlooked ▸ hi)
    · rintro (hinside | ⟨-, k, hk, -, hstops⟩)
      · exact ⟨fun i hi => hinside i (hlooked ▸ hi), fun _ hout => absurd hinside hout⟩
      · exact absurd hstops (hall.unstopped k hk)
  · rw [← hload] at hresult
    have hlooked : (loadImage c true m).looked = k + 1 := by rw [hresult, hat.looked]
    have herr : (loadImage c true m).machine.errnum = .execFormat ↔ c.suggestedType ≠ .none := by
      rw [hresult]
      dsimp only
      split
      next hfree => exact iff_of_false hat.other (not_not.2 hfree)
      next hasked => exact iff_of_true rfl hasked
    have htype : (loadImage c true m).type = .none := by rw [hresult]
    constructor
    · intro h
      by_cases hinside : c.TableInside m
      · exact .inl hinside
      · refine .inr ⟨herr.1 (h.rejected helf hinside).2, k, hk, fun i hi => h.inside i ?_, hat.stops⟩
        omega
    · rintro (hinside | ⟨hasked, k', -, hinside, hstops⟩)
      · exact ⟨fun i hi => hinside i (by omega), fun _ hout => absurd hinside hout⟩
      · have hle : k ≤ k' := Nat.le_of_not_lt fun hlt => hat.first k' hlt hstops
        exact ⟨fun i hi => hinside i (by omega), fun _ _ => ⟨htype, herr.2 hasked⟩⟩

/-- The loop looks at the first header of a kernel that has been admitted. -/
theorem looked_pos (helf : c.IsElf m) (hphnum : 0 < (c.header m).phnum.toNat)
    (hin : ¬ (c.header m).outside (.ofNat 32 multibootSearch)) (hclean : c.pending m = .none) : 0 < (loadImage c true m).looked := by
  have herrnum := admitted_errnum (c := c) (m := m)
  rw [if_neg hin, hclean] at herrnum
  have hscanned := loadElf_scanned rfl herrnum (admitElf_sizes ..)
  rw [loadImage_elf helf]
  rcases hscanned with ⟨s, hall, hlooked⟩ | ⟨k, -, s, hat, hresult⟩
  · rw [hlooked, hall.looked]
    exact hphnum
  · rw [hresult]
    dsimp only
    rw [hat.looked]
    exact Nat.succ_pos k

/-- **The program headers are read from what has been read of the file, or the kernel is rejected, exactly if** the
table fits, the 32-bit test refuses it, or the loop stops before it comes to a header outside. -/
theorem headersBounded_iff (c : Call) (m : Machine) : c.HeadersBounded m ↔ (c.IsElf m → c.HeadersFit m) := by
  by_cases helf : c.IsElf m
  swap
  · refine iff_of_true ⟨fun i hi => ?_, fun h => absurd h helf⟩ fun h => absurd h helf
    rw [loadImage_other helf] at hi
    exact absurd hi (Nat.not_lt_zero i)
  simp only [helf, true_implies, Call.HeadersFit]
  have hload := loadImage_elf helf
  have herrnum := admitted_errnum (c := c) (m := m)
  have hsizes := admitElf_sizes (c.header m) (.ofNat 32 multibootSearch) (c.foundType m) c.suggestedType (c.begun m)
  generalize (admitElf (c.header m) (.ofNat 32 multibootSearch) (c.foundType m) c.suggestedType (c.begun m)).2 = m' at hload herrnum hsizes
  by_cases hnone : m'.errnum = .none
  · have hout : ¬ (c.header m).outside (.ofNat 32 multibootSearch) := by
      intro hout
      rw [hnone, if_pos hout] at herrnum
      cases herrnum
    rw [hnone, if_neg hout] at herrnum
    rw [headersBounded_admitted helf hload hnone hsizes, ← herrnum]
    simp only [hout, false_or, reduceCtorEq, true_and]
  · rw [loadElf_refused hnone] at hload
    have hlooked : (loadImage c true m).looked = 0 := by rw [hload, Loaded.rejected]
    have hresult : (loadImage c true m).type = .none ∧ (loadImage c true m).machine.errnum = m'.errnum := by
      rw [hload]
      exact ⟨rfl, rfl⟩
    have hpending : (c.header m).outside (.ofNat 32 multibootSearch) ∨ c.pending m = .execFormat ↔ m'.errnum = .execFormat := by
      rw [herrnum]
      split
      next hout => exact iff_of_true (.inl hout) rfl
      next hin => simp only [hin, false_or]
    have hfailed : ¬ (c.header m).outside (.ofNat 32 multibootSearch) → c.pending m ≠ .none := by
      intro hin hclean
      rw [if_neg hin, hclean] at herrnum
      exact hnone herrnum
    constructor
    · intro h
      by_cases hinside : c.TableInside m
      · exact .inr (.inl hinside)
      · have herr := (h.rejected helf hinside).2
        rw [hresult.2, ← hpending] at herr
        exact herr.elim .inl fun h => .inr (.inr (.inl h))
    · intro h
      refine ⟨fun i hi => absurd hi (by rw [hlooked]; exact Nat.not_lt_zero i), fun _ hinside => ⟨hresult.1, ?_⟩⟩
      rw [hresult.2, ← hpending]
      rcases h with hout | hin | herr | ⟨hclean, -⟩
      · exact .inl hout
      · exact absurd hin hinside
      · exact .inr herr
      · by_cases hout : (c.header m).outside (.ofNat 32 multibootSearch)
        · exact .inl hout
        · exact absurd hclean (hfailed hout)

end Bounds

/-! ## A table that reaches beyond the buffer -/

/-- An ELF header whose only program header, of 20 bytes as `e_phentsize` says, is at 8170. -/
def shortEntry : List Byte :=
  [0x7F, 0x45, 0x4C, 0x46, 1, 1, 1, 0, 0, 0, 0, 0, 0, 0, 0, 0, 2, 0, 3, 0, 1, 0, 0, 0, 0, 0, 0x10, 0, 0xEA, 0x1F, 0, 0,
    0, 0, 0, 0, 0, 0, 0, 0, 0x34, 0, 20, 0, 1, 0, 0, 0, 0, 0, 0, 0]

def shortEntryBuffer : Buffer := fun k => shortEntry.getD k 0

/-- The machine behind `grub_open`, for a file of 8192 bytes that begins with the header. -/
def shortEntryMachine : Machine where
  errnum := .none
  memLower := 640
  memUpper := 0x10000
  mem a := shortEntry.getD (a - 0x104000).toNat 0
  filepos := 0
  filemax := 8192
  kernelRealAddr := 0x104000
  curAddr := 0
  entryAddr := 0
  mbiFlags := 0
  syms := .none
  extendedMemory := 0x10000
  linuxDataRealAddr := 0
  linuxDataTmpAddr := 0
  linuxMemSize := 0
  linuxTextLen := 0

def shortEntryCall : Call := ⟨[], .none, 0, 0x60000, 0x5FFF0, fun _ => 0⟩

theorem shortEntry_buffer : shortEntryCall.buffer shortEntryMachine = shortEntryBuffer := by
  funext k
  have hfits : (shortEntryMachine.checked shortEntryCall.bufferAddr (.ofNat 32 multibootSearch)).errnum = .none := by decide
  have hposition : shortEntryMachine.kernelRealAddr + shortEntryMachine.position = 0x104000 := by decide
  unfold Call.buffer
  rw [Machine.grubReadLocal_eq]
  dsimp only
  rw [hposition]
  by_cases hk : k < multibootSearch
  · have hoffset : ((0x104000 : Word) + .ofNat 32 k - 0x104000).toNat = k := by
      unfold multibootSearch at hk
      rw [add_sub_cancel_left, BitVec.toNat_ofNat]
      omega
    rw [if_pos ⟨hfits, hk⟩]
    exact congrArg (fun k => shortEntry.getD k 0) hoffset
  · have hbehind : shortEntry.length ≤ k := Nat.le_trans (by decide) (Nat.le_of_not_lt hk)
    rw [if_neg fun h => hk h.2, shortEntryBuffer, List.getD, List.getElem?_eq_none hbehind]
    rfl

/-- A magic number has the byte `0x1B`. -/
theorem magic_byte {buf : Buffer} {i : Nat} (h : Boot.word32 buf i = Boot.multibootMagic) : buf (i + 3) = 0x1B := by
  have hbytes := congrArg BitVec.toNat h
  have h0 := (buf i).isLt
  have h1 := (buf (i + 1)).isLt
  have h2 := (buf (i + 2)).isLt
  have h3 := (buf (i + 3)).isLt
  apply BitVec.eq_of_toNat_eq
  rw [Boot.word32, BitVec.toNat_ofNat, Nat.mod_eq_of_lt (Partition.le32_lt buf i)] at hbytes
  unfold Partition.le32 Partition.le16 Boot.multibootMagic at hbytes
  simp only [Nat.add_assoc, Nat.reduceAdd, BitVec.reduceToNat] at hbytes
  simp only [BitVec.reduceToNat]
  omega

theorem findMultiboot_none {buf : Buffer} (h : ∀ k, buf k ≠ 0x1B) (len : Nat) : findMultiboot buf len = none := by
  rw [findMultiboot, List.find?_eq_none]
  intro i _ hfound
  exact h (i + 3) (magic_byte (of_decide_eq_true hfound).2.2.1)

theorem shortEntry_plain : findMultiboot (shortEntryCall.buffer shortEntryMachine) multibootSearch = none := by
  rw [shortEntry_buffer]
  apply findMultiboot_none
  intro k
  by_cases hk : k < shortEntry.length
  · have hall : ∀ b ∈ shortEntry, b ≠ 0x1B := by decide
    rw [shortEntryBuffer, List.getD, List.getElem?_eq_getElem hk]
    exact hall _ (List.getElem_mem hk)
  · rw [shortEntryBuffer, List.getD, List.getElem?_eq_none (Nat.le_of_not_lt hk)]
    decide

/-- The sum of offset and sizes is below the length, but the program header is one of 32 bytes. -/
theorem shortEntry_unbounded : ¬ shortEntryCall.HeadersBounded shortEntryMachine := by
  intro h
  have hheader : shortEntryCall.header shortEntryMachine = elfHeader shortEntryBuffer := congrArg elfHeader shortEntry_buffer
  have htype : shortEntryCall.foundType shortEntryMachine = .none := by
    unfold Call.foundType
    rw [shortEntry_plain]
    rfl
  have helf : shortEntryCall.IsElf shortEntryMachine := by
    refine ⟨?_, .inr (.inr (.inr (.inl rfl))), ?_⟩
    · rintro ⟨i, hfound, -⟩
      rw [shortEntry_plain] at hfound
      cases hfound
    · rw [shortEntry_buffer]
      decide
  have hphnum : 0 < (shortEntryCall.header shortEntryMachine).phnum.toNat := by
    rw [hheader]
    decide
  have hin : ¬ (shortEntryCall.header shortEntryMachine).outside (.ofNat 32 multibootSearch) := by
    rw [hheader]
    decide
  have hclean : shortEntryCall.pending shortEntryMachine = .none := by
    unfold Call.pending
    rw [hheader, htype]
    decide
  have hinside := h.inside 0 (looked_pos helf hphnum hin hclean)
  have hcount := count_le (c := shortEntryCall) (m := shortEntryMachine)
  unfold Call.Inside at hinside
  have hoffset : (elfHeader shortEntryBuffer).phoff.toNat = 8170 := by decide
  unfold multibootSearch at hcount
  rw [hheader, hoffset] at hinside
  omega

end TrustedGrub.Loader
