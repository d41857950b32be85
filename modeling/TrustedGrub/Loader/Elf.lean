import TrustedGrub.Loader.Machine

/-!
# ELF kernels in `load_image`

The loop over the program headers, and the symbols that are loaded behind the segments.
The headers are read from the buffer on the stack that holds the first bytes of the
file, at offsets that the file gives: what lies around the buffer is read as well.
-/

namespace TrustedGrub.Loader
open Fips180 (Byte)
open CharIo (Word)
open Boot (word32)
open TrustedGrub.Partition (Buffer le16)

def half (buf : Buffer) (off : Nat) : BitVec 16 := .ofNat 16 (le16 buf off)

/-- `Elf32_Ehdr`. -/
structure ElfHeader where
  /-- `e_ident[EI_OSABI]`. -/
  osabi : Byte
  entry : Word
  phoff : Word
  shoff : Word
  phentsize : BitVec 16
  phnum : BitVec 16
  shentsize : BitVec 16
  shnum : BitVec 16
  shstrndx : BitVec 16

def elfHeader (buf : Buffer) : ElfHeader where
  osabi := buf 7
  entry := word32 buf 24
  phoff := word32 buf 28
  shoff := word32 buf 32
  phentsize := half buf 42
  phnum := half buf 44
  shentsize := half buf 46
  shnum := half buf 48
  shstrndx := half buf 50

/-- `Elf32_Phdr`. -/
structure ProgramHeader where
  type : Word
  offset : Word
  vaddr : Word
  paddr : Word
  filesz : Word
  memsz : Word
  deriving DecidableEq

def programHeader (buf : Buffer) (off : Word) : ProgramHeader where
  type := word32 buf off.toNat
  offset := word32 buf (off.toNat + 4)
  vaddr := word32 buf (off.toNat + 8)
  paddr := word32 buf (off.toNat + 12)
  filesz := word32 buf (off.toNat + 16)
  memsz := word32 buf (off.toNat + 20)

def ptLoad : Word := 1

namespace ElfHeader

/-- Where the program header `i` is, counted from the start of the buffer. -/
def phdrOffset (h : ElfHeader) (i : Nat) : Word := h.phoff + h.phentsize.setWidth 32 * .ofNat 32 i

/-- The program headers are at some random place in the file. -/
def outside (h : ElfHeader) (len : Word) : Prop :=
  h.phoff = 0 ∨ h.phnum = 0 ∨ len ≤ h.phoff + h.phentsize.setWidth 32 * h.phnum.setWidth 32

instance (h : ElfHeader) (len : Word) : Decidable (h.outside len) := inferInstanceAs (Decidable (_ ∨ _ ∨ _))

end ElfHeader

/-! ## Segments -/

def KernelType.isBsd (type : KernelType) : Prop := type = .freebsd ∨ type = .netbsd ∨ type = .openbsd

instance (type : KernelType) : Decidable type.isBsd := inferInstanceAs (Decidable (_ ∨ _ ∨ _))

/-- Where a segment is loaded. -/
def memaddr (type : KernelType) (ph : ProgramHeader) : Word := if type.isBsd then ph.paddr &&& 0xFFFFFF else ph.paddr

/-- Make sure we only load what we're supposed to. -/
def filesiz (ph : ProgramHeader) : Word := if ph.memsz < ph.filesz then ph.memsz else ph.filesz

/-- The locals of the loop, and how many program headers it has looked at. -/
structure Scan where
  machine : Machine
  loaded : Nat
  realEntryAddr : Word
  looked : Nat

/-- What precedes the load of a segment: the file offset, and what is noted about the segment. -/
def Scan.noted (type : KernelType) (ph : ProgramHeader) (s : Scan) : Scan :=
  let m := (s.machine.grubSeek ph.offset).2
  let addr := memaddr type ph
  let m := if addr < 0x100000 then { m with errnum := .below1mb } else m
  { s with
    machine := if m.curAddr < addr + ph.memsz then { m with curAddr := addr + ph.memsz } else m
    loaded := s.loaded + 1
    realEntryAddr :=
      if type = .multiboot ∧ ph.vaddr ≤ m.entryAddr ∧ m.entryAddr < ph.vaddr + ph.memsz then m.entryAddr + addr - ph.vaddr
      else s.realEntryAddr }

/-- Load the segment. -/
def Machine.loadSegment (m : Machine) (addr filesz memsz : Word) : Bool × Machine :=
  let (ok, m) := m.memcheck addr memsz
  if ok then
    let (got, m) := m.grubRead addr filesz
    if got = filesz then (true, if filesz < memsz then m.grubMemset (addr + filesz) 0 (memsz - filesz) else m) else (false, m)
  else (false, m)

/-- One pass of the loop, and whether it goes on. -/
def Scan.segment (type : KernelType) (ph : ProgramHeader) (s : Scan) : Bool × Scan :=
  let s := { s with looked := s.looked + 1 }
  if ph.type = ptLoad then
    let s := s.noted type ph
    let (more, m) := s.machine.loadSegment (memaddr type ph) (filesiz ph) ph.memsz
    (more, { s with machine := m })
  else (true, s)

/-- Scan for program segments: `n` of them, from header `i` on. -/
def Scan.segments (type : KernelType) (h : ElfHeader) (buf : Buffer) : Nat → Nat → Scan → Scan
  | 0, _, s => s
  | n + 1, i, s =>
    let (more, s) := s.segment type (programHeader buf (h.phdrOffset i))
    if more then segments type h buf n (i + 1) s else s

/-! ## Symbols -/

def align4k (addr : Word) : Word := (addr + 0xFFF) &&& 0xFFFFF000

def shAddr : Word := 12
def shOffset : Word := 16
def shSize : Word := 20
def shAddralign : Word := 32

/-- Load the section `i` of the table at `shdr`, and whether that failed. -/
def Machine.loadSection (m : Machine) (shdr : Word) (i : Nat) : Bool × Machine :=
  let entry := shdr + .ofNat 32 (40 * i)
  if m.word (entry + shAddr) ≠ 0 then (false, m)
  else if m.word (entry + shSize) = 0 then (false, m)
  else
    let align := m.word (entry + shAddralign)
    let m := { m with curAddr := (m.curAddr + align) &&& -align }
    let m := (m.grubSeek (m.word (entry + shOffset))).2
    let secSize := m.word (entry + shSize)
    let (ok, m) := m.memcheck m.curAddr secSize
    if ok then
      let (got, m) := m.grubRead m.curAddr secSize
      if got = secSize then
        let m := m.setWord (entry + shAddr) m.curAddr
        (false, { m with curAddr := m.curAddr + secSize })
      else (true, m)
    else (true, m)

/-- The loop over the sections: `n` of them, from section `i` on. -/
def Machine.loadSections (shdr : Word) : Nat → Nat → Machine → Bool × Machine
  | 0, _, m => (false, m)
  | n + 1, i, m =>
    let (failed, m) := m.loadSection shdr i
    if failed then (true, m) else loadSections shdr n (i + 1) m

def mbInfoElfShdr : Word := 0x20

/-- Load ELF symbols. -/
def Machine.loadSymbols (h : ElfHeader) (m : Machine) : Machine :=
  let syms : Symbols := { m.syms with num := h.shnum.setWidth 32, size := h.shentsize.setWidth 32, shndx := h.shstrndx.setWidth 32 }
  let m := { m with syms := syms, curAddr := align4k m.curAddr }
  let tabSize := h.shentsize.setWidth 32 * h.shnum.setWidth 32
  let m := (m.grubSeek h.shoff).2
  let (got, m) := m.grubRead m.curAddr tabSize
  let (symtabErr, m) :=
    if got = tabSize then
      let m := { m with syms := { m.syms with addr := m.curAddr } }
      Machine.loadSections m.syms.addr h.shnum.toNat 0 { m with curAddr := m.curAddr + tabSize }
    else (true, m)
  if symtabErr ∨ m.syms.addr < 0x10000 then { m with syms := .none, curAddr := 0 }
  else { m with mbiFlags := m.mbiFlags ||| mbInfoElfShdr }

/-- The load of an ELF executable. -/
def Machine.loadElf (type : KernelType) (buf : Buffer) (m : Machine) : Scan :=
  let h := elfHeader buf
  let s := Scan.segments type h buf h.phnum.toNat 0 ⟨{ m with curAddr := 0 }, 0, 0, 0⟩
  if s.machine.errnum ≠ .none then s
  else if s.loaded = 0 then { s with machine := { s.machine with errnum := .execFormat } }
  else { s with machine := s.machine.loadSymbols h }

end TrustedGrub.Loader
