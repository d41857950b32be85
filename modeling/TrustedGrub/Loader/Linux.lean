import TrustedGrub.Builtins.DriveMap
import TrustedGrub.CharIo.Number
import TrustedGrub.Ext2.Dir
import TrustedGrub.Loader.Elf

/-!
# Linux kernels in `load_image`

The kernel's header is changed in the buffer, and the setup part is put behind the place
of the kernel proper, where the command line joins it.
-/

namespace TrustedGrub.Loader
open Fips180 (Byte)
open CharIo (Word Parse safeParseMaxint tolower convertToAscii maxint)
open Boot (word32)
open Builtins (skipTo)
open TrustedGrub.Partition (Buffer)

/-- What `load_image` is called with, and where its `buffer` and its `i` lie on the stack, which holds something already. -/
structure Call where
  arg : List Byte
  suggestedType : KernelType
  loadFlags : Word
  bufferAddr : Word
  iAddr : Word
  stack : Buffer

/-- How `load_image` ends: the type it returns, and how many program headers it has looked at. -/
structure Loaded where
  type : KernelType
  machine : Machine
  looked : Nat

/-- `return KERNEL_TYPE_NONE`. -/
def Loaded.rejected (m : Machine) : Loaded := ⟨.none, m, 0⟩

/-- `n` bytes of a field. -/
def setField (buf : Buffer) (off n : Nat) (value : Word) : Buffer :=
  fun k => if off ≤ k ∧ k < off + n then (value >>> (8 * (k - off))).setWidth 8 else buf k

/-- `grub_strstr (s1, s2)`. -/
def grubStrstr (s2 : List Byte) : List Byte → Option (List Byte)
  | [] => none
  | c :: s1 => if s2 ≠ [] ∧ s2.isPrefixOf (c :: s1) then some (c :: s1) else grubStrstr s2 s1

/-- `grub_memmove` from the buffer. -/
def Machine.copyBuffer (m : Machine) (dst : Word) (buf : Buffer) (len : Nat) : Machine :=
  let (ok, m) := m.memcheck dst (.ofNat 32 len)
  if ok then { m with mem := fun x => if WordMemory.Within dst len x then buf (x - dst).toNat else m.mem x } else m

/-! ## Admission -/

def linuxMagicSignature : Word := 0x53726448
def bootsecSignature : BitVec 16 := 0xAA55
def linuxMaxSetupSects : Nat := 64
def linuxDefaultSetupSects : Nat := 4
def linuxBootLoaderType : Word := 0x71
def linuxHeapEndOffset : Word := 0x9000 - 0x200
def linuxFlagBigKernel : Byte := 0x1
def linuxFlagCanUseHeap : Byte := 0x80
def linuxBzimageAddr : Word := 0x100000
def linuxZimageAddr : Word := 0x10000
def linuxOldRealModeAddr : Word := 0x90000
def linuxClOffset : Word := 0x9000
def linuxClEndOffset : Word := 0x90FF
def linuxCl0202PrmOffset : Word := 0x9500
def linuxCl0202PrmEndOffset : Word := 0x9FFF
def linuxSetupMoveSize : Word := 0xA000
def linuxClMagic : Word := 0xA33F
def linuxInitrdMaxAddress : Word := 0x38000000

/-- The header has the signature, and its protocol is 2.00 at least. -/
def newProtocol (buf : Buffer) : Prop := word32 buf 0x202 = linuxMagicSignature ∧ 0x0200 ≤ half buf 0x206

instance (buf : Buffer) : Decidable (newProtocol buf) := inferInstanceAs (Decidable (_ ∧ _))

/-- `mbi.mem_lower << 10`. -/
def lowerBytes (memLower : Word) : Word := memLower <<< (10 : Nat)

/-- `linux_data_real_addr`: as high as possible, but not beyond the traditional area. -/
def realAddr (buf : Buffer) (memLower : Word) : Word :=
  if newProtocol buf then
    if linuxOldRealModeAddr < lowerBytes memLower - linuxSetupMoveSize then linuxOldRealModeAddr else
      lowerBytes memLower - linuxSetupMoveSize
  else linuxOldRealModeAddr

/-- The fields of the header that tell the kernel about its loader. -/
def setHeader (buf : Buffer) (real : Word) : Buffer :=
  if newProtocol buf then
    let version := half buf 0x206
    let loadflags := buf 0x211
    let buf := setField buf 0x210 1 linuxBootLoaderType
    let buf := if 0x0201 ≤ version then
        setField (setField buf 0x224 2 linuxHeapEndOffset) 0x211 1 ((loadflags ||| linuxFlagCanUseHeap).setWidth 32)
      else buf
    if 0x0202 ≤ version then setField buf 0x228 4 (real + linuxCl0202PrmOffset)
    else setField (setField (setField buf 0x20 2 linuxClMagic) 0x22 2 linuxClOffset) 0x212 2 linuxSetupMoveSize
  else setField (setField buf 0x20 2 linuxClMagic) 0x22 2 linuxClOffset

/-- `setup_sects`, or the default. -/
def setupSects (buf : Buffer) : Nat :=
  if newProtocol buf ∧ buf 0x1F1 ≠ 0 then (buf 0x1F1).toNat else linuxDefaultSetupSects

def bigLinux (buf : Buffer) : Prop := newProtocol buf ∧ buf 0x211 &&& linuxFlagBigKernel ≠ 0

instance (buf : Buffer) : Decidable (bigLinux buf) := inferInstanceAs (Decidable (_ ∧ _))

/-! ## The options -/

def vgaOption : List Byte := [0x76, 0x67, 0x61, 0x3D]
def memOption : List Byte := [0x6D, 0x65, 0x6D, 0x3D]

/-- Video mode selection: the mode of `vga=`, if there is one, or the error. -/
def vidMode (arg : List Byte) (m : Machine) : Except Machine (Option Word) :=
  match grubStrstr vgaOption arg with
  | none => .ok none
  | some vga =>
    let value := vga.drop 4
    if Ext2.substring [0x6E, 0x6F, 0x72, 0x6D, 0x61, 0x6C] value < 1 then .ok (some 0xFFFF)
    else if Ext2.substring [0x65, 0x78, 0x74] value < 1 then .ok (some 0xFFFE)
    else if Ext2.substring [0x61, 0x73, 0x6B] value < 1 then .ok (some 0xFFFD)
    else
      let (ok, p) := safeParseMaxint ⟨value, 0, m.errnum⟩
      if ok then .ok (some p.myint) else .error { m with errnum := p.errnum }

/-- The shift of a unit. -/
def unitShift (c : Word) : Nat :=
  if tolower c = 0x67 then 30 else if tolower c = 0x6D then 20 else if tolower c = 0x6B then 10 else 0

/-- `linux_mem_size` from the `mem=` option, to limit memory used for initrd. -/
def Machine.memSize (arg : List Byte) (m : Machine) : Machine :=
  match grubStrstr memOption arg with
  | none => { m with linuxMemSize := 0 }
  | some mem =>
    let (_, p) := safeParseMaxint ⟨mem.drop 4, m.linuxMemSize, m.errnum⟩
    match p.errnum with
    | .numberOverflow => { m with linuxMemSize := linuxInitrdMaxAddress, errnum := .none }
    | .none =>
      let shift := unitShift ((p.strPtr.headD 0).signExtend 32)
      { m with
        linuxMemSize := if (maxint.sshiftRight shift).slt p.myint then linuxInitrdMaxAddress else p.myint <<< shift
        errnum := .none }
    | _ => { m with linuxMemSize := 0, errnum := .none }

/-! ## The command line -/

/-- Copy the string as far as `stop`; where the next byte goes. -/
def Machine.copyString (stop : Word) : Word → List Byte → Machine → Word × Machine
  | dest, [], m => (dest, m)
  | dest, c :: src, m =>
    if dest < stop then copyString stop (dest + 1) src { m with mem := WordMemory.put m.mem dest c } else (dest, m)

/-- `*(dest++)`, for each of the bytes. -/
def Machine.putBytes : Word → List Byte → Machine → Word × Machine
  | dest, [], m => (dest, m)
  | dest, c :: src, m => putBytes (dest + 1) src { m with mem := WordMemory.put m.mem dest c }

/-- Copy command-line plus memory hack to staging area. -/
def Machine.copyCommandLine (c : Call) (version : BitVec 16) (m : Machine) : Machine :=
  let src := skipTo false c.arg
  let tmp := m.linuxDataTmpAddr
  let (dest, m) := m.copyString (tmp + linuxClEndOffset) (tmp + linuxClOffset) src
  let (dest', m) := m.copyString (tmp + linuxCl0202PrmEndOffset) (tmp + linuxCl0202PrmOffset) src
  let m := (m.putBytes dest' [0]).2
  let (dest, m) :=
    if grubStrstr memOption c.arg = none ∧ c.loadFlags &&& 1 = 0 ∧ version < 0x0203 ∧ dest + 15 < tmp + linuxClEndOffset then
      m.putBytes dest ([0x20, 0x6D, 0x65, 0x6D, 0x3D] ++ convertToAscii 0x75 (m.extendedMemory + 0x400) ++ [0x4B])
    else (dest, m)
  (m.putBytes dest [0]).2

/-! ## The load -/

/-- The setup part, which may have been read partially. -/
def Machine.stageSetup (buf : Buffer) (size : Nat) (m : Machine) : Machine :=
  if size ≤ Boot.multibootSearch then m.copyBuffer m.linuxDataTmpAddr buf size
  else
    let m := m.copyBuffer m.linuxDataTmpAddr buf Boot.multibootSearch
    (m.grubRead (m.linuxDataTmpAddr + .ofNat 32 Boot.multibootSearch) (.ofNat 32 (size - Boot.multibootSearch))).2

/-- What the places of the setup part and of the kernel proper are. -/
structure LinuxPlan where
  sects : Nat
  big : Bool
  old : Bool
  version : BitVec 16
  textLen : Word

def linuxPlan (buf : Buffer) (filemax : Word) : LinuxPlan where
  sects := setupSects buf
  big := bigLinux buf
  old := ¬ newProtocol buf
  version := half buf 0x206
  textLen := filemax - .ofNat 32 (setupSects buf * 512) - 512

def setVidMode (buf : Buffer) (mode : Option Word) : Buffer :=
  match mode with
  | none => buf
  | some mode => setField buf 0x1FA 2 mode

/-- The copies: the setup part, the command line, and the kernel proper. -/
def Machine.stage (c : Call) (p : LinuxPlan) (buf : Buffer) (m : Machine) : Machine :=
  let m := m.stageSetup buf (p.sects * 512 + 512)
  let m := if p.old then m.grubMemset (m.linuxDataTmpAddr + .ofNat 32 ((p.sects + 1) * 512)) 0 (.ofNat 32 ((64 - p.sects - 1) * 512)) else m
  let m := m.copyCommandLine c p.version
  let m := (m.grubSeek (.ofNat 32 (p.sects * 512 + 512))).2
  let m := { m with curAddr := m.linuxDataTmpAddr + linuxSetupMoveSize }
  (m.grubRead linuxBzimageAddr p.textLen).2

/-- Sanity check. -/
def finishLinux (c : Call) (p : LinuxPlan) (m : Machine) : Loaded :=
  if m.errnum = .none then
    let type := if p.big then .bigLinux else .linux
    if c.suggestedType ≠ .none ∧ c.suggestedType ≠ type then .rejected { m with errnum := .execFormat }
    else ⟨type, { m with linuxTextLen := p.textLen }, 0⟩
  else .rejected m

/-- The load of a Linux image. -/
def Machine.loadLinux (c : Call) (buf : Buffer) (m : Machine) : Loaded :=
  let p := linuxPlan buf m.filemax
  let real := realAddr buf m.memLower
  let m := { m with linuxDataRealAddr := real, linuxDataTmpAddr := linuxBzimageAddr + p.textLen }
  if ¬ p.big ∧ real - linuxZimageAddr < p.textLen then .rejected { m with errnum := .wontFit }
  else if lowerBytes m.memLower < real + linuxSetupMoveSize then .rejected { m with errnum := .wontFit }
  else
    match vidMode c.arg m with
    | .error m => .rejected m
    | .ok mode => finishLinux c p ((m.memSize c.arg).stage c p (setVidMode (setHeader buf real) mode))

end TrustedGrub.Loader
