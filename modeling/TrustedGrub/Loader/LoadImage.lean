import TrustedGrub.Loader.Aout
import TrustedGrub.Loader.Linux
import TrustedGrub.Menu.Config

/-!
# `load_image`

Which format a kernel has, and what `load_image` returns. The file is open, with its
contents at `kernel_real_addr`, or `grub_open` has failed.
-/

namespace TrustedGrub.Loader
open Fips180 (Byte)
open CharIo (Word)
open Boot (word32 MultibootHeader multibootHeader multibootSearch multibootUnsupported multibootAoutKludge findMultiboot bootableI386Elf)
open Menu (grubStrcmp)
open TrustedGrub.Partition (Buffer)

/-- The string at `off`, which ends before a zero. There are no more than `n` characters to look at. -/
def cstring (buf : Buffer) : Nat → Nat → List Byte
  | 0, _ => []
  | n + 1, off => if buf off = 0 then [] else buf off :: cstring buf n (off + 1)

/-- The string at `e_ident + EI_BRAND` is `FreeBSD`. A longer one differs in the first eight bytes. -/
def freebsdBrand (buf : Buffer) : Prop := grubStrcmp (cstring buf 8 8) [0x46, 0x72, 0x65, 0x65, 0x42, 0x53, 0x44] = .eq

instance (buf : Buffer) : Decidable (freebsdBrand buf) := inferInstanceAs (Decidable (_ = _))

def elfosabiFreebsd : Byte := 9

/-- ELF loading supported if multiboot, FreeBSD, OpenBSD and NetBSD. -/
def elfSupported (buf : Buffer) (type suggested : KernelType) : Prop :=
  type = .multiboot ∨ (elfHeader buf).osabi = elfosabiFreebsd ∨ freebsdBrand buf ∨
    suggested = .none ∨ suggested = .openbsd ∨ suggested = .netbsd

instance (buf : Buffer) (type suggested : KernelType) : Decidable (elfSupported buf type suggested) :=
  inferInstanceAs (Decidable (_ ∨ _ ∨ _ ∨ _ ∨ _ ∨ _))

/-- The type of an ELF kernel without a Multiboot header. -/
def elfType (h : ElfHeader) (suggested : KernelType) : KernelType :=
  if suggested = .netbsd then .netbsd
  else if suggested = .freebsd ∨ h.osabi = elfosabiFreebsd then .freebsd
  else .openbsd

/-- The checks of an ELF header. -/
def admitElf (h : ElfHeader) (len : Word) (type suggested : KernelType) (m : Machine) : KernelType × Machine :=
  let m := { m with entryAddr := if type = .multiboot then h.entry else h.entry &&& 0xFFFFFF }
  let m := if m.entryAddr < 0x100000 then { m with errnum := .below1mb } else m
  let m := if h.outside len then { m with errnum := .execFormat } else m
  (if type = .none then elfType h suggested else type, m)

/-- The end: the entry address, the type, and the check of the type that was asked for. -/
def finish (c : Call) (type : KernelType) (realEntryAddr : Word) (looked : Nat) (m : Machine) : Loaded :=
  let type := if m.errnum = .none then type else .none
  let m := if m.errnum = .none ∧ realEntryAddr ≠ 0 then { m with entryAddr := realEntryAddr } else m
  if c.suggestedType ≠ .none ∧ c.suggestedType ≠ type then ⟨.none, { m with errnum := .execFormat }, looked⟩
  else ⟨type, m, looked⟩

/-- Fill the multiboot info structure, as far as the symbols go: the flags of modules and symbols are cleared. -/
def Machine.fillInfo (m : Machine) : Machine := { m with mbiFlags := m.mbiFlags &&& ~~~0x38, syms := .none }

/-- What follows the admission of an ELF header. -/
def loadElf (c : Call) (buf : Buffer) (type : KernelType) (m : Machine) : Loaded :=
  if m.errnum ≠ .none then .rejected m
  else
    let s := m.fillInfo.loadElf type buf
    finish c type s.realEntryAddr s.looked s.machine

/-- What follows the admission of an a.out header, or of address fields. -/
def loadAout (c : Call) (buf : Buffer) (l : Locals) (m : Machine) : Loaded :=
  if m.errnum ≠ .none then .rejected m
  else finish c l.type 0 0 (m.fillInfo.loadAout l buf c.iAddr)

/-- The load by the format. The Multiboot header is at offset `i`, if the type tells that there is one. -/
def loadFormat (c : Call) (buf : Buffer) (len : Word) (type : KernelType) (flags : Word) (i : Nat) (m : Machine) : Loaded :=
  if elfSupported buf type c.suggestedType ∧ bootableI386Elf buf len.toNat then
    let (type, m) := admitElf (elfHeader buf) len type c.suggestedType m
    loadElf c buf type m
  else if flags &&& multibootAoutKludge ≠ 0 then
    let (l, m) := admitKludge (multibootHeader buf i) i m
    loadAout c buf l m
  else if 32 < len ∧ ¬ (exec buf).badMag then
    let (l, m) := admitAout buf type flags i m
    loadAout c buf l m
  else if half buf 0x1FE = bootsecSignature ∧ (buf 0x1F1).toNat ≤ linuxMaxSetupSects then m.loadLinux c buf
  else .rejected { m with errnum := .execFormat }

/-- What `load_image` makes of the first bytes of the file. -/
def loadBuffer (c : Call) (buf : Buffer) (len : Word) (m : Machine) : Loaded :=
  match findMultiboot buf len.toNat with
  | none => loadFormat c buf len .none 0 len.toNat m
  | some i =>
    let flags := (multibootHeader buf i).flags
    if flags &&& multibootUnsupported ≠ 0 then .rejected { m with errnum := .bootFeatures }
    else loadFormat c buf len .multiboot flags i m

def loadImage (c : Call) (opened : Bool) (m : Machine) : Loaded :=
  if ¬ opened then .rejected m
  else
    let (buf, len, m) := m.grubReadLocal c.bufferAddr c.stack multibootSearch
    if len = 0 ∨ len.slt 32 then .rejected (if m.errnum = .none then { m with errnum := .execFormat } else m)
    else loadBuffer c buf len m

end TrustedGrub.Loader
